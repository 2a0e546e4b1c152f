import Mathlib.Data.List.Induction
import StackVM.Proofs.Machine.Calling.Endings
import StackVM.Proofs.Value.Bisimulation.Equality

/-! # Hashes from pairs on the stack

The instruction that makes a hash takes keys and values that alternate on the stack. If all keys
can be keys of a hash, the hash has them in order of first occurrence, each with the value of its
last one. So the order of pairs with different keys does not matter to equality. Otherwise the
first value that cannot be a key is reported, and all pairs are gone.
-/
namespace StackVM

/-- The entries of the map that pairs describe: the distinct keys in order of first occurrence, each
with the value of its last occurrence. -/
structure Entries.Describe (entries : Entries) (pairs : List (Key × Value)) : Prop where
  keys : entries.map Prod.fst = (pairs.map Prod.fst).eraseDups
  values : ∀ k, entries.get? k = pairs.reverse.lookup k

/-- The second list is a permutation of the first one that keeps pairs with equal keys in order. -/
structure Reorders (pairs pairs' : List (Key × Value)) : Prop where
  perm : pairs.Perm pairs'
  order : ∀ k, pairs.filter (·.1 = k) = pairs'.filter (·.1 = k)

namespace Entries
variable {entries : Entries} {k k' : Key} {v : Value}

theorem keys_insert :
    (entries.insert k v).map Prod.fst =
      if k ∈ entries.map Prod.fst then entries.map Prod.fst else entries.map Prod.fst ++ [k] := by
  fun_induction insert entries k v <;> grind

theorem get?_insert :
    (entries.insert k v).get? k' = if k' = k then some v else entries.get? k' := by
  unfold get?
  fun_induction insert entries k v <;> grind

theorem ofPairs_concat (pairs : List (Key × Value)) (k : Key) (v : Value) :
    ofPairs (pairs ++ [(k, v)]) = (ofPairs pairs).insert k v := by
  simp [ofPairs]

theorem describe_ofPairs (pairs : List (Key × Value)) : (ofPairs pairs).Describe pairs := by
  induction pairs using List.reverseRecOn with
  | nil => exact ⟨rfl, fun _ => rfl⟩
  | append_singleton pairs e ih =>
    obtain ⟨k, v⟩ := e
    obtain ⟨hkeys, hvalues⟩ := ih
    rw [ofPairs_concat]
    refine ⟨?_, fun k' => ?_⟩
    · rw [keys_insert, hkeys, List.map_append, List.eraseDups_append]
      by_cases hk : k ∈ pairs.map Prod.fst <;> simp [List.removeAll, List.eraseDups_cons, hk]
    · rw [get?_insert, hvalues, List.reverse_append]
      by_cases hk : k' = k
      · simp [hk]
      · simp [List.lookup_cons, hk, beq_eq_false_iff_ne.mpr hk]

theorem lookup_filter (pairs : List (Key × Value)) (k : Key) :
    (pairs.filter (·.1 = k)).lookup k = pairs.lookup k := by
  induction pairs with
  | nil => rfl
  | cons e pairs ih => grind

theorem Describe.get?_eq {pairs pairs' : List (Key × Value)} {entries' : Entries}
    (h : entries.Describe pairs) (h' : entries'.Describe pairs') (hpairs : Reorders pairs pairs')
    (k : Key) : entries.get? k = entries'.get? k := by
  rw [h.values, h'.values, ← lookup_filter, ← lookup_filter pairs'.reverse, List.filter_reverse,
    List.filter_reverse, hpairs.order]

end Entries

namespace Store
variable {st : Store} {order : Order} {path : List ContainerPair}

theorem compares_self (v : Value) : st.Compares order path (v, some v) true := by
  cases hpair : v.pair? v with
  | none =>
    have hscalar : st.Compares order path (v, some v) (decide (v = v)) := .scalar hpair
    rwa [decide_eq_true rfl] at hscalar
  | some p => exact .known hpair (.inl rfl)

theorem equal_hash_of_get? {a b : HashRef} (ha : ((st.hash a).map Prod.fst).Nodup)
    (hb : ((st.hash b).map Prod.fst).Nodup) (h : ∀ k, (st.hash a).get? k = (st.hash b).get? k) :
    st.equal (.hash a) (.hash b) = true := by
  let order : Order := ⟨fun _ l => l, fun _ _ => .refl _⟩
  have hperm : ((st.hash a).map Prod.fst).Perm ((st.hash b).map Prod.fst) := by
    refine (List.perm_ext_iff_of_nodup ha hb).mpr fun k => ?_
    rw [← Entries.isSome_get?_iff, h k, Entries.isSome_get?_iff]
  refine (compares_iff order).mp ?_
  by_cases hab : a = b
  · subst hab
    exact compares_self _
  · refine .alike (p := .hash a b) rfl (by simp [hab]) (if_pos (by simpa using hperm.length_eq))
      fun c hc => ?_
    obtain ⟨⟨k, x⟩, he, rfl⟩ := List.mem_map.mp hc
    have hx : (st.hash b).get? k = some x := h k ▸ (Entries.get?_eq_some_iff ha).mpr he
    change st.Compares order _ (x, (st.hash b).get? k) true
    rw [hx]
    exact compares_self x

end Store

/-- Keys and values that alternate above what is below them; the last value is the newest. -/
def Context.offering (below : Context) (pairs : List (Value × Value)) : Context :=
  { below with stack := (pairs.flatMap fun e => [e.1, e.2]).reverse ++ below.stack }

/-- Pairs whose first components can be keys, as they are on the stack. -/
def keyed (pairs : List (Key × Value)) : List (Value × Value) :=
  pairs.map fun e => (e.1.value, e.2)

namespace Exec
variable {m : Machine} {below : Context} {base : Base} {pos next : Nat} {n : UInt16}

theorem popN_offering (pairs : List (Value × Value)) :
    popN pos (2 * pairs.length) ⟨m, below.offering pairs⟩ =
      .ok (pairs.flatMap fun e => [e.1, e.2]) ⟨m, below⟩ := by
  have hlength : (pairs.flatMap fun e => [e.1, e.2]).reverse.length = 2 * pairs.length := by
    simp [Nat.mul_comm]
  rw [popN_apply (by simp [Context.sp, Context.offering, Nat.mul_comm])]
  simp [Context.offering, List.take_left' hlength, List.drop_left' hlength]

/-- Pairs are inserted one by one, as long as their first components can be keys. -/
theorem gatherEntries_keyed (entries : Entries) (pairs : List (Key × Value)) (rest : List Value) :
    gatherEntries entries (((keyed pairs).flatMap fun e => [e.1, e.2]) ++ rest) =
      gatherEntries (pairs.foldl (fun entries (k, v) => entries.insert k v) entries) rest := by
  induction pairs generalizing entries with
  | nil => rfl
  | cons e pairs ih =>
    rw [List.foldl_cons, ← ih]
    simp [keyed, gatherEntries, Key.key?_value]

/-- Executing the instruction replaces the pairs by one new hash. -/
structure Builds (base : Base) (pos next : Nat) (n : UInt16) (m : Machine) (below : Context)
    (pairs : List (Value × Value)) (r : HashRef) (st : Store) : Prop where
  fresh : r.id = m.store.hashes.size
  store : st = { m.store with hashes := m.store.hashes.push (st.hash r) }
  result : instr base pos next ⟨.makeHash, n⟩ ⟨m, below.offering pairs⟩ =
    .ok .next ⟨{ m with store := st }, below.pushing (.hash r)⟩

theorem makeHash_keyed {pairs : List (Key × Value)} (hn : n.toNat = pairs.length)
    (hroom : below.sp < Capacity.stack) :
    ∃ r st, Builds base pos next n m below (keyed pairs) r st ∧ st.hash r = .ofPairs pairs := by
  have hlength : n.toNat = (keyed pairs).length := by simpa [keyed] using hn
  have hgather := gatherEntries_keyed [] pairs []
  rw [List.append_nil] at hgather
  refine ⟨⟨m.store.hashes.size⟩, { m.store with
    hashes := m.store.hashes.push (.ofPairs pairs) }, ⟨rfl, ?_, ?_⟩, ?_⟩
  · simp [Store.hash]
  · change makeHash pos n.toNat _ = _
    rw [hlength, makeHash, bind_apply, popN_offering]
    dsimp only
    rw [hgather]
    change (pushNew pos _ >>= _) _ = _
    rw [bind_apply, pushNew, if_pos hroom]
    rfl
  · simp [Store.hash]

/-- The hash finds room where the pairs were; only without pairs a free slot is needed. -/
theorem sp_lt_of_offering {keys : List (Key × Value)} (hn : n.toNat = keys.length)
    (hstack : (below.offering (keyed keys)).sp ≤ Capacity.stack)
    (hfree : n.toNat = 0 → below.sp < Capacity.stack) : below.sp < Capacity.stack := by
  cases keys with
  | nil => exact hfree hn
  | cons e keys =>
    simp only [Context.sp, Context.offering, keyed, List.map_cons, List.flatMap_cons,
      List.length_append, List.length_reverse, List.length_cons] at hstack ⊢
    omega

theorem makeHash_refused {before : List (Key × Value)} {k v : Value}
    {after : List (Value × Value)} (hn : n.toNat = (keyed before ++ (k, v) :: after).length)
    (hk : k.key? = none) :
    instr base pos next ⟨.makeHash, n⟩ ⟨m, below.offering (keyed before ++ (k, v) :: after)⟩ =
      .ok (.raise (m.store.invalidKey k).1)
        ⟨{ m with store := (m.store.invalidKey k).2 }, below⟩ := by
  have hgather := gatherEntries_keyed [] before (((k, v) :: after).flatMap fun e => [e.1, e.2])
  have hrefused : ∀ entries, gatherEntries entries
      (((k, v) :: after).flatMap fun e => [e.1, e.2]) = .error k := by
    intro entries
    simp [gatherEntries, hk]
  change makeHash pos n.toNat _ = _
  rw [hn, makeHash, bind_apply, popN_offering, List.flatMap_append]
  dsimp only
  rw [hgather, hrefused]
  rfl

/-- What an exception says of a value that cannot be a key. -/
def refusal (found : Value) : Entries :=
  [(.str "type", .str "InvalidHashKey"), (.str "found", .str found.typeName)]

/-- Executing the instruction takes the pairs and raises a new hash that refuses this value. -/
structure Refuses (base : Base) (pos next : Nat) (n : UInt16) (m : Machine) (below : Context)
    (pairs : List (Value × Value)) (found : Value) (r : HashRef) (st : Store) : Prop where
  fresh : r.id = m.store.hashes.size
  store : st = { m.store with hashes := m.store.hashes.push (refusal found) }
  result : instr base pos next ⟨.makeHash, n⟩ ⟨m, below.offering pairs⟩ =
    .ok (.raise (.hash r)) ⟨{ m with store := st }, below⟩

theorem Builds.hash_of_lt {pairs : List (Value × Value)} {r r' : HashRef} {st : Store}
    {entries : Entries} (h : Builds base pos next n m below pairs r st)
    (hr : m.store.hashes[r'.id]? = some entries) : st.hash r' = entries := by
  obtain ⟨hlt, -⟩ := Array.getElem?_eq_some_iff.mp hr
  rw [h.store, Store.hash, Array.getElem?_push, if_neg (Nat.ne_of_lt hlt), hr]
  rfl

end Exec

theorem key?_eq_none_iff {v : Value} : v.key? = none ↔ ∀ k : Key, v ≠ k.value := by
  constructor
  · rintro h k rfl
    rw [k.key?_value] at h
    cases h
  · intro h
    cases v with
    | null => exact absurd rfl (h .null)
    | bool b => exact absurd rfl (h (.bool b))
    | int n => exact absurd rfl (h (.int n))
    | str s => exact absurd rfl (h (.str s))
    | _ => rfl

/-- Pairs are keyed, or there is a first one whose first component cannot be a key. -/
theorem keyed_or_refused (pairs : List (Value × Value)) :
    (∃ keys, pairs = keyed keys) ∨ ∃ before k v after,
      pairs = keyed before ++ (k, v) :: after ∧ ∀ key : Key, k ≠ key.value := by
  induction pairs with
  | nil => exact .inl ⟨[], rfl⟩
  | cons e pairs ih =>
    obtain ⟨k, v⟩ := e
    by_cases hk : ∀ key : Key, k ≠ key.value
    · exact .inr ⟨[], k, v, pairs, rfl, hk⟩
    · simp only [not_forall, not_not] at hk
      obtain ⟨key, rfl⟩ := hk
      rcases ih with ⟨keys, rfl⟩ | ⟨before, k, w, after, rfl, hk⟩
      · exact .inl ⟨(key, v) :: keys, rfl⟩
      · exact .inr ⟨(key, v) :: before, k, w, after, rfl, hk⟩

/-- The instruction that makes a hash from pairs on the stack. If all keys can be keys of a hash, it
replaces the pairs by one new hash of the map that they describe, and reordering pairs with
different keys gives an equal hash, wherever the instruction is executed again while the first hash
is kept. Otherwise it takes all pairs and raises an exception that names the type of the first value
that cannot be a key. -/
theorem makeHash_builds_map {base : Base} {pos next : Nat} {n : UInt16} {m : Machine}
    {below : Context} {pairs : List (Value × Value)} (hn : n.toNat = pairs.length)
    (hstack : (below.offering pairs).sp ≤ Capacity.stack)
    (hfree : n.toNat = 0 → below.sp < Capacity.stack) :
    (∀ keys, pairs = keyed keys →
      ∃ r st, Exec.Builds base pos next n m below pairs r st ∧ (st.hash r).Describe keys ∧
        ∀ keys' base' pos' next' m' below', Reorders keys keys' →
          m'.store.hashes[r.id]? = some (st.hash r) →
          (below'.offering (keyed keys')).sp ≤ Capacity.stack →
          (n.toNat = 0 → below'.sp < Capacity.stack) →
          ∃ r' st', Exec.Builds base' pos' next' n m' below' (keyed keys') r' st' ∧
            (st'.hash r').Describe keys' ∧ st'.equal (.hash r) (.hash r') = true) ∧
    ((¬ ∃ keys, pairs = keyed keys) → ∃ before k v after,
      pairs = keyed before ++ (k, v) :: after ∧ (∀ key : Key, k ≠ key.value) ∧
        ∃ r st, Exec.Refuses base pos next n m below pairs k r st) := by
  constructor
  · rintro keys rfl
    have hlength : n.toNat = keys.length := by simpa [keyed] using hn
    have hmade : ∃ r st, Exec.Builds base pos next n m below (keyed keys) r st ∧
        st.hash r = .ofPairs keys :=
      Exec.makeHash_keyed hlength (Exec.sp_lt_of_offering hlength hstack hfree)
    obtain ⟨r, st, hbuilds, hentries⟩ := hmade
    refine ⟨r, st, hbuilds, hentries ▸ Entries.describe_ofPairs keys, ?_⟩
    intro keys' base' pos' next' m' below' hreorders hkept hstack' hfree'
    have hlength' : n.toNat = keys'.length := hlength.trans hreorders.perm.length_eq
    have hmade' : ∃ r' st', Exec.Builds base' pos' next' n m' below' (keyed keys') r' st' ∧
        st'.hash r' = .ofPairs keys' :=
      Exec.makeHash_keyed hlength' (Exec.sp_lt_of_offering hlength' hstack' hfree')
    obtain ⟨r', st', hbuilds', hentries'⟩ := hmade'
    have hdescribe' := Entries.describe_ofPairs keys'
    refine ⟨r', st', hbuilds', hentries' ▸ hdescribe', ?_⟩
    have hkept' : st'.hash r = .ofPairs keys := (hbuilds'.hash_of_lt hkept).trans hentries
    refine Store.equal_hash_of_get? ?_ ?_ fun k => ?_
    · exact hkept' ▸ Entries.nodup_ofPairs keys
    · exact hentries' ▸ Entries.nodup_ofPairs keys'
    · rw [hkept', hentries']
      exact (Entries.describe_ofPairs keys).get?_eq hdescribe' hreorders k
  · intro hnot
    obtain ⟨before, k, v, after, rfl, hk⟩ := (keyed_or_refused pairs).resolve_left hnot
    exact ⟨before, k, v, after, rfl, hk, ⟨m.store.hashes.size⟩, _, rfl, rfl,
      Exec.makeHash_refused hn (key?_eq_none_iff.mpr hk)⟩

/-- A number, the text of its digit, and the number again. -/
def digitPairs : List (Key × Value) :=
  [(.int 1, .null), (.str "1", .bool true), (.int 1, .bool false)]

/-- The same pairs with the text in front. -/
def digitPairs' : List (Key × Value) :=
  [(.str "1", .bool true), (.int 1, .null), (.int 1, .bool false)]

theorem reorders_digitPairs : Reorders digitPairs digitPairs' where
  perm := .swap _ _ _
  order k := by
    by_cases hint : Key.int 1 = k
    · subst hint
      rfl
    · by_cases hstr : Key.str "1" = k <;> simp [digitPairs, digitPairs', hint, hstr]

theorem makeHash_builds_map_digitPairs :
    (∃ r st, Exec.Builds ⟨0, 0, false⟩ 0 3 3 default .new (keyed digitPairs) r st ∧
      (st.hash r).map Prod.fst = [.int 1, .str "1"] ∧
      (st.hash r).get? (.int 1) = some (.bool false) ∧
      ∃ r' st', Exec.Builds ⟨0, 0, false⟩ 0 3 3 { (default : Machine) with store := st } .new
        (keyed digitPairs') r' st' ∧ st'.equal (.hash r) (.hash r') = true) ∧
    ∃ r st, Exec.Refuses ⟨0, 0, false⟩ 0 3 2 default .new
      [(.null, .null), (.arr ⟨0⟩, .null)] (.arr ⟨0⟩) r st := by
  constructor
  · obtain ⟨r, st, hbuilds, hdescribe, hagain⟩ :=
      (@makeHash_builds_map ⟨0, 0, false⟩ 0 3 3 default .new (keyed digitPairs) rfl (by decide)
        (by decide)).1 digitPairs rfl
    refine ⟨r, st, hbuilds, hdescribe.keys.trans (by decide), (hdescribe.values _).trans rfl, ?_⟩
    have hkept : st.hashes[r.id]? = some (st.hash r) := by
      rw [hbuilds.store]
      simp [Store.hash, hbuilds.fresh]
    let m : Machine := { (default : Machine) with store := st }
    obtain ⟨r', st', hbuilds', -, hequal⟩ :=
      hagain digitPairs' ⟨0, 0, false⟩ 0 3 m .new reorders_digitPairs hkept (by decide) (by decide)
    exact ⟨r', st', hbuilds', hequal⟩
  · have hrefused : ¬ ∃ keys, [(Value.null, Value.null), (.arr ⟨0⟩, .null)] = keyed keys := by
      rintro ⟨keys, hkeys⟩
      have hmem : (Value.arr ⟨0⟩, Value.null) ∈ keyed keys := hkeys ▸ by simp
      obtain ⟨⟨key, v⟩, -, hkey⟩ := List.mem_map.mp hmem
      cases key <;> cases hkey
    obtain ⟨before, k, v, after, hpairs, hk, r, st, hrefuses⟩ :=
      (@makeHash_builds_map ⟨0, 0, false⟩ 0 3 2 default .new [(.null, .null), (.arr ⟨0⟩, .null)] rfl
        (by decide) (by decide)).2 hrefused
    have hmem : (k, v) ∈ [(Value.null, Value.null), (.arr ⟨0⟩, .null)] := hpairs ▸ by simp
    simp only [List.mem_cons, Prod.mk.injEq, List.not_mem_nil, or_false] at hmem
    rcases hmem with ⟨rfl, -⟩ | ⟨rfl, -⟩
    · exact absurd rfl (hk .null)
    · exact ⟨r, st, hrefuses⟩

end StackVM
