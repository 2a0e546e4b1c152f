import StackVM.Proofs.Value.References.Liveness

/-! # Changes of a coherent store

The members of a chain that exists are never chains, so what is added to a chain is none either;
that the added function exists is needed, since a reference to nothing reads as a chain without
members.
-/
namespace StackVM

namespace Store
variable {size size' : Nat} {st st' st'' : Store}

theorem Develops.trans (h : st.Develops size st') (h' : st'.Develops size st'') :
    st.Develops size st'' := ⟨h.grows.trans h'.grows, h'.coherent⟩

namespace Coherent
variable {items : Array Value} {entries : Entries} {slots : Array Value} {v : Value} {f : Function}

theorem empty (size : Nat) : Store.empty.Coherent size := by constructor <;> simp [Store.empty]

theorem refl (h : st.Coherent size) : st.Develops size st := ⟨.refl st, h⟩

theorem mono (h : st.Coherent size) (hsize : size ≤ size') : st.Coherent size' where
  arrays := h.arrays
  hashes := h.hashes
  locals := h.locals
  chains := h.chains
  flat := h.flat
  formed c hc := ⟨(h.formed c hc).types, (h.formed c hc).slots,
    Nat.lt_of_lt_of_le (h.formed c hc).entry hsize⟩

theorem arr_live (h : st.Coherent size) (r : ArrRef) : ∀ v ∈ st.arr r, v.Live st := by
  unfold Store.arr
  cases hr : st.arrays[r.id]? with
  | none => simp
  | some items => exact h.arrays items (Array.mem_of_getElem? hr)

theorem hash_live (h : st.Coherent size) (r : HashRef) : ∀ p ∈ st.hash r, p.2.Live st := by
  unfold Store.hash
  cases hr : st.hashes[r.id]? with
  | none => simp
  | some entries => exact h.hashes entries (Array.mem_of_getElem? hr)

theorem slots_live (h : st.Coherent size) (r : LocalsRef) : ∀ v ∈ st.slots r, v.Live st := by
  unfold Store.slots
  cases hr : st.locals[r.id]? with
  | none => simp
  | some slots => exact h.locals slots (Array.mem_of_getElem? hr)

theorem overloads_live (h : st.Coherent size) (r : ChainRef) :
    ∀ f ∈ (st.chain r).overloads, f.Live st ∧ ∀ r', f ≠ .chain r' := by
  unfold Store.chain
  cases hr : st.chains[r.id]? with
  | none => exact fun f hf => nomatch (show f ∈ [] from hf)
  | some c =>
    have hc := Array.mem_of_getElem? hr
    intro f hf
    refine ⟨h.chains c hc f hf, ?_⟩
    rintro r' rfl
    exact (h.flat c hc).simple r' hf

theorem closure_formed (h : st.Coherent size) {r : ClosureRef}
    (hr : (Function.closure r).Live st) : (st.closure r).Formed size := by
  have hfound : st.closures[r.id]? = some st.closures[r.id] := Array.getElem?_eq_getElem hr
  rw [Store.closure, hfound]
  exact h.formed _ (Array.mem_of_getElem? hfound)

theorem members_live (h : st.Coherent size) (hf : f.Live st) (target : ChainRef) :
    ∀ g ∈ st.members target f, g.Live st ∧ ∀ r, g ≠ .chain r := by
  cases f with
  | chain r =>
    simp only [Store.members]
    split
    · exact List.forall_mem_nil _
    · exact h.overloads_live r
  | native | closure => exact List.forall_mem_singleton.mpr ⟨hf, nofun⟩

theorem members_ne_nil (h : st.Coherent size) (hf : f.Live st) {target : ChainRef}
    (hne : f ≠ .chain target) : st.members target f ≠ [] := by
  cases f with
  | chain r =>
    have hfound : st.chains[r.id]? = some st.chains[r.id] := Array.getElem?_eq_getElem hf
    have hr : r ≠ target := fun heq => hne (congrArg _ heq)
    simp only [Store.members, if_neg hr, Store.chain, hfound, Option.getD_some]
    exact (h.flat _ (Array.mem_of_getElem? hfound)).nonempty
  | native | closure => exact List.cons_ne_nil _ _

theorem develops (h : st.Coherent size) (hst : st.Grows st')
    (harrays : ∀ items ∈ st'.arrays, items ∈ st.arrays ∨ ∀ v ∈ items, v.Live st')
    (hhashes : ∀ entries ∈ st'.hashes, entries ∈ st.hashes ∨ ∀ p ∈ entries, p.2.Live st')
    (hlocals : ∀ slots ∈ st'.locals, slots ∈ st.locals ∨ ∀ v ∈ slots, v.Live st')
    (hchains : ∀ c ∈ st'.chains, c ∈ st.chains ∨ c.Flat ∧ ∀ f ∈ c.overloads, f.Live st')
    (hclosures : ∀ c ∈ st'.closures, c ∈ st.closures ∨ c.Formed size) : st.Develops size st' := by
  refine ⟨hst, ?_, ?_, ?_, ?_, ?_, ?_⟩
  · intro items hitems
    exact (harrays items hitems).elim (fun hold v hv => (h.arrays items hold v hv).mono hst) id
  · intro entries hentries
    refine (hhashes entries hentries).elim (fun hold p hp => ?_) id
    exact (h.hashes entries hold p hp).mono hst
  · intro slots hslots
    exact (hlocals slots hslots).elim (fun hold v hv => (h.locals slots hold v hv).mono hst) id
  · intro c hc
    exact (hchains c hc).elim (fun hold f hf => (h.chains c hold f hf).mono hst) fun hnew => hnew.2
  · intro c hc
    exact (hchains c hc).elim (h.flat c) fun hnew => hnew.1
  · intro c hc
    exact (hclosures c hc).elim (h.formed c) id

theorem newArr (h : st.Coherent size) (hitems : ∀ v ∈ items, v.Live st) :
    st.Yields size (st.newArr items) := by
  have hst : st.Grows (st.newArr items).2 := by constructor <;> simp [Store.newArr]
  refine ⟨h.develops hst ?_ (fun _ => .inl) (fun _ => .inl) (fun _ => .inl) fun _ => .inl, ?_⟩
  · intro items' hitems'
    rcases Array.mem_push.mp hitems' with hold | rfl
    · exact .inl hold
    · exact .inr fun v hv => (hitems v hv).mono hst
  · simp [Store.newArr, Value.Live]

theorem newHash (h : st.Coherent size) (hentries : ∀ p ∈ entries, p.2.Live st) :
    st.Yields size (st.newHash entries) := by
  have hst : st.Grows (st.newHash entries).2 := by constructor <;> simp [Store.newHash]
  refine ⟨h.develops hst (fun _ => .inl) ?_ (fun _ => .inl) (fun _ => .inl) fun _ => .inl, ?_⟩
  · intro entries' hentries'
    rcases Array.mem_push.mp hentries' with hold | rfl
    · exact .inl hold
    · exact .inr fun p hp => (hentries p hp).mono hst
  · simp [Store.newHash, Value.Live]

theorem newError (h : st.Coherent size) (kind field text : String) :
    st.Yields size (st.newError kind [(field, .str text)]) := by
  refine h.newHash fun p hp => ?_
  rcases List.mem_cons.mp (Entries.mem_ofPairs hp) with rfl | hrest
  · trivial
  · rw [List.mem_singleton.mp hrest]
    trivial

theorem pushItem (h : st.Coherent size) (hv : v.Live st) (r : ArrRef) :
    st.Develops size (st.pushItem r v) := by
  have hst : st.Grows (st.pushItem r v) := by constructor <;> simp [Store.pushItem]
  refine h.develops hst ?_ (fun _ => .inl) (fun _ => .inl) (fun _ => .inl) fun _ => .inl
  intro items (hitems : items ∈ st.arrays.modify r.id (·.push v))
  refine (mem_or_of_mem_modify hitems).imp_right ?_
  rintro ⟨old, hold, rfl⟩ w hw
  rcases Array.mem_push.mp hw with hw | rfl
  · exact (h.arrays old hold w hw).mono hst
  · exact hv.mono hst

theorem putEntry (h : st.Coherent size) (hv : v.Live st) (r : HashRef) (k : Key) :
    st.Develops size (st.putEntry r k v) := by
  have hst : st.Grows (st.putEntry r k v) := by constructor <;> simp [Store.putEntry]
  refine h.develops hst (fun _ => .inl) ?_ (fun _ => .inl) (fun _ => .inl) fun _ => .inl
  intro entries (hentries : entries ∈ st.hashes.modify r.id (·.insert k v))
  refine (mem_or_of_mem_modify hentries).imp_right ?_
  rintro ⟨old, hold, rfl⟩ p hp
  rcases Entries.mem_insert hp with hp | rfl
  · exact (h.hashes old hold p hp).mono hst
  · exact hv.mono hst

theorem setItems (h : st.Coherent size) (hitems : ∀ v ∈ items, v.Live st) (r : ArrRef) :
    st.Develops size (st.setItems r items) := by
  have hst : st.Grows (st.setItems r items) := by constructor <;> simp [Store.setItems]
  refine h.develops hst ?_ (fun _ => .inl) (fun _ => .inl) (fun _ => .inl) fun _ => .inl
  intro items' hitems'
  rcases Array.mem_or_eq_of_mem_setIfInBounds hitems' with hold | rfl
  · exact .inl hold
  · exact .inr fun v hv => (hitems v hv).mono hst

theorem setEntries (h : st.Coherent size) (hentries : ∀ p ∈ entries, p.2.Live st) (r : HashRef) :
    st.Develops size (st.setEntries r entries) := by
  have hst : st.Grows (st.setEntries r entries) := by constructor <;> simp [Store.setEntries]
  refine h.develops hst (fun _ => .inl) ?_ (fun _ => .inl) (fun _ => .inl) fun _ => .inl
  intro entries' hentries'
  rcases Array.mem_or_eq_of_mem_setIfInBounds hentries' with hold | rfl
  · exact .inl hold
  · exact .inr fun p hp => (hentries p hp).mono hst

theorem newLocals (h : st.Coherent size) (hslots : ∀ v ∈ slots, v.Live st) :
    st.Develops size (st.newLocals slots).2 := by
  have hst : st.Grows (st.newLocals slots).2 := by constructor <;> simp [Store.newLocals]
  refine h.develops hst (fun _ => .inl) (fun _ => .inl) ?_ (fun _ => .inl) fun _ => .inl
  intro slots' hslots'
  rcases Array.mem_push.mp hslots' with hold | rfl
  · exact .inl hold
  · exact .inr fun v hv => (hslots v hv).mono hst

theorem setSlot (h : st.Coherent size) (hv : v.Live st) (r : LocalsRef) (slot : Nat) :
    st.Develops size (st.setSlot r slot v) := by
  have hst : st.Grows (st.setSlot r slot v) := by constructor <;> simp [Store.setSlot]
  refine h.develops hst (fun _ => .inl) (fun _ => .inl) ?_ (fun _ => .inl) fun _ => .inl
  intro slots (hslots : slots ∈ st.locals.modify r.id (·.setIfInBounds slot v))
  refine (mem_or_of_mem_modify hslots).imp_right ?_
  rintro ⟨old, hold, rfl⟩ w hw
  rcases Array.mem_or_eq_of_mem_setIfInBounds hw with hw | rfl
  · exact (h.locals old hold w hw).mono hst
  · exact hv.mono hst

theorem newClosure (h : st.Coherent size) {c : Closure} (hc : c.Formed size) :
    st.Yields size (.func (st.newClosure c).1, (st.newClosure c).2) := by
  have hst : st.Grows (st.newClosure c).2 := by constructor <;> simp [Store.newClosure]
  refine ⟨h.develops hst (fun _ => .inl) (fun _ => .inl) (fun _ => .inl) (fun _ => .inl) ?_, ?_⟩
  · intro c' hc'
    refine (Array.mem_push.mp hc').imp_right ?_
    rintro rfl
    exact hc
  · simp [Store.newClosure, Value.Live, Function.Live]

theorem newNative (h : st.Coherent size) (n : Native) :
    st.Yields size (.func (st.newNative n).1, (st.newNative n).2) := by
  have hst : st.Grows (st.newNative n).2 := by constructor <;> simp [Store.newNative]
  refine ⟨h.develops hst (fun _ => .inl) (fun _ => .inl) (fun _ => .inl) (fun _ => .inl) ?_, ?_⟩
  · exact fun _ => .inl
  · simp [Store.newNative, Value.Live, Function.Live]

theorem addOverload (h : st.Coherent size) (hf : f.Live st) (r : ChainRef) :
    st.Develops size (st.addOverload r f) := by
  have hst : st.Grows (st.addOverload r f) := by constructor <;> simp [Store.addOverload]
  refine h.develops hst (fun _ => .inl) (fun _ => .inl) (fun _ => .inl) ?_ fun _ => .inl
  intro c (hc : c ∈ st.chains.modify r.id fun c =>
    { c with overloads := c.overloads ++ st.members r f })
  refine (mem_or_of_mem_modify hc).imp_right ?_
  rintro ⟨old, hold, rfl⟩
  have hmembers := h.members_live hf r
  refine ⟨⟨?_, fun r' hr' => ?_⟩, fun g hg => ?_⟩
  · exact List.append_ne_nil_of_left_ne_nil (h.flat old hold).nonempty _
  · rcases List.mem_append.mp hr' with hr' | hr'
    · exact (h.flat old hold).simple r' hr'
    · exact (hmembers _ hr').2 r' rfl
  · rcases List.mem_append.mp hg with hg | hg
    · exact (h.chains old hold g hg).mono hst
    · exact (hmembers g hg).1.mono hst

theorem newChain_eq (hf : f.Live st) (name : String) :
    st.newChain name f = (⟨st.chains.size⟩,
      { st with chains := st.chains.push ⟨name, st.members ⟨st.chains.size⟩ f⟩ }) := by
  have hmembers : ({ st with chains := st.chains.push ⟨name, []⟩ } : Store).members
      ⟨st.chains.size⟩ f = st.members ⟨st.chains.size⟩ f := by
    cases f with
    | chain r =>
      have hr : (st.chains.push ⟨name, []⟩)[r.id]? = st.chains[r.id]? :=
        (Array.getElem?_push_lt hf).trans (Array.getElem?_eq_getElem hf).symm
      simp only [Store.members, Store.chain, hr]
    | native | closure => rfl
  have hlast : ∀ (cs : Array Chain) (c : Chain) (g : Chain → Chain),
      (cs.push c).modify cs.size g = cs.push (g c) := by
    intro cs c g
    refine Array.ext (by simp) fun i hi _ => ?_
    rw [Array.size_modify, Array.size_push] at hi
    by_cases hlt : i < cs.size
    · simp [Array.getElem_modify, Array.getElem_push, hlt, Nat.ne_of_gt hlt]
    · obtain rfl : i = cs.size := by omega
      simp [Array.getElem_modify, Array.getElem_push]
  simp only [Store.newChain, Store.addOverload, hmembers, hlast, List.nil_append]

theorem newChain (h : st.Coherent size) (hf : f.Live st) (name : String) :
    st.Yields size (.func (.chain (st.newChain name f).1), (st.newChain name f).2) := by
  rw [newChain_eq hf]
  have hst : st.Grows
      { st with chains := st.chains.push ⟨name, st.members ⟨st.chains.size⟩ f⟩ } := by
    constructor <;> simp
  have hother : f ≠ .chain ⟨st.chains.size⟩ := by
    rintro rfl
    exact Nat.lt_irrefl _ hf
  refine ⟨h.develops hst (fun _ => .inl) (fun _ => .inl) (fun _ => .inl) ?_ fun _ => .inl, ?_⟩
  · intro c hc
    refine (Array.mem_push.mp hc).imp_right ?_
    rintro rfl
    have hmembers := h.members_live hf ⟨st.chains.size⟩
    refine ⟨⟨h.members_ne_nil hf hother, fun r hr => (hmembers _ hr).2 r rfl⟩, fun g hg => ?_⟩
    exact (hmembers g hg).1.mono hst
  · simp [Value.Live, Function.Live]

theorem defineOverload (h : st.Coherent size) (hv : v.Live st) (hf : f.Live st) (name : String) :
    st.Yields size (st.defineOverload v f name) := by
  have halone := h.newChain hf name
  cases v with
  | func existing =>
    have hwith : ∀ hlive : existing.Live st, st.Yields size
        (.func (.chain (st.newChain name existing).1),
          (st.newChain name existing).2.addOverload (st.newChain name existing).1 f) := by
      intro hlive
      have hchain := h.newChain hlive name
      have hadd := hchain.coherent.addOverload (hf.mono hchain.grows) (st.newChain name existing).1
      exact ⟨hchain.toDevelops.trans hadd, hchain.live.mono hadd.grows⟩
    cases existing with
    | chain r =>
      have hadd := h.addOverload hf r
      exact ⟨hadd, hv.mono hadd.grows⟩
    | native r => exact hwith hv
    | closure r => exact hwith hv
  | _ => exact halone

end Coherent
end Store
end StackVM
