import StackVM.Proofs.Value.Display.Rules

/-! # How containers are displayed

An ellipsis stands for a container inside itself, and no other text looks like it. Where no cycle is
in reach the guard has nothing to do, and the rendering is what the rules give without any guard.
-/
namespace StackVM
namespace Store
variable {st : Store} {guard : Guard} {spot : Spot} {path : List Container} {v : Value}

/-- The text does not begin like the inside of an ellipsis. -/
def Begins (t : String) : Prop := ∃ c, t.toList.head? = some c ∧ c ≠ '.'

theorem Begins.append {s : String} (h : Begins s) (t : String) : Begins (s ++ t) := by
  obtain ⟨c, hs, hc⟩ := h
  exact ⟨c, by rw [String.toList_append, List.head?_append, hs]; rfl, hc⟩

theorem begins_toString (n : Int) : Begins (toString n) := by
  have hne : (toString n).toList ≠ [] := by
    cases n with
    | ofNat m =>
      rw [Int.ofNat_eq_natCast, Token.toList_toString_ofNat]
      exact Nat.toDigits_ne_nil
    | negSucc m =>
      rw [Token.toList_toString_negSucc]
      exact List.cons_ne_nil _ _
  refine ⟨_, List.head?_eq_some_head hne, ?_⟩
  intro hdot
  rcases Token.isDecimal_toString (List.head_mem hne) with hc | hc <;> rw [hdot] at hc <;> cases hc

theorem begins_renderScalar (hv : v.str? = none) : Begins (st.renderScalar v) := by
  cases v with
  | str s => cases hv
  | int n => exact begins_toString _
  | func f => exact (Begins.append ⟨'<', rfl, by decide⟩ _).append _
  | type t => exact (Begins.append ⟨'<', rfl, by decide⟩ _).append _
  | clib h => exact (Begins.append ⟨'<', rfl, by decide⟩ _).append _
  | csym h => exact (Begins.append ⟨'<', rfl, by decide⟩ _).append _
  | bool b => cases b <;> simp [renderScalar, Begins]
  | null | undef | arr | hash => simp [renderScalar, Begins]

theorem Writes.begins {t : String} (h : st.Writes guard .inside path v t) : Begins t := by
  cases h with
  | quoted => exact ⟨'"', by simp [Text.quote], by decide⟩
  | scalar _ hstr => exact begins_renderScalar hstr
  | arrAgain => exact ⟨'[', rfl, by decide⟩
  | hashAgain => exact ⟨'\x7b', rfl, by decide⟩
  | arr => exact (Begins.append ⟨'[', rfl, by decide⟩ _).append _
  | hash => exact (Begins.append ⟨'\x7b', rfl, by decide⟩ _).append _

theorem intercalate_ne_dots {texts : List String} (h : ∀ t ∈ texts, Begins t) :
    ", ".intercalate texts ≠ "..." := by
  cases texts with
  | nil => decide
  | cons t rest =>
    have hbegins : Begins (", ".intercalate (t :: rest)) := by
      have ht := h t List.mem_cons_self
      cases rest with
      | nil => simpa using ht
      | cons u rest =>
        rw [String.intercalate_cons_cons]
        exact (ht.append _).append _
    intro hdots
    obtain ⟨c, hc, hne⟩ := hdots ▸ hbegins
    exact hne (Option.some.inj hc).symm

/-- An ellipsis is written for a container exactly inside that container. -/
theorem Writes.ellipsis_iff {c : Container} {t : String}
    (h : st.Writes .ancestors spot path c.value t) : t = c.ellipsis ↔ c ∈ path := by
  have hinside : ∀ {a b x : String}, a ++ x ++ b = a ++ "..." ++ b → x = "..." := by
    intro a b x heq
    have hlists := congrArg String.toList heq
    simp only [String.toList_append, List.append_cancel_right_eq, List.append_cancel_left_eq]
      at hlists
    exact String.toList_inj.mp hlists
  cases c with
  | arr r =>
    cases h with
    | scalar hcontainer => cases hcontainer
    | arrAgain hagain => exact ⟨fun _ => hagain, fun _ => rfl⟩
    | arr text hfresh hitems =>
      refine ⟨fun heq => absurd (hinside heq) (intercalate_ne_dots ?_), fun hm => absurd hm hfresh⟩
      simpa using fun v hv => (hitems v hv).begins
  | hash r =>
    cases h with
    | scalar hcontainer => cases hcontainer
    | hashAgain hagain => exact ⟨fun _ => hagain, fun _ => rfl⟩
    | hash text hfresh hkeys _ =>
      refine ⟨fun heq => absurd (hinside heq) (intercalate_ne_dots ?_), fun hm => absurd hm hfresh⟩
      rintro t ht
      simp only [List.map_map, List.mem_map] at ht
      obtain ⟨e, he, rfl⟩ := ht
      exact ((hkeys e he).begins.append _).append _

/-- The first container holds the second one. -/
def Holds (st : Store) (c d : Container) : Prop := d.value ∈ st.contents c

/-- No cycle of containers is reachable from the value. -/
def Acyclic (st : Store) (v : Value) : Prop :=
  ∀ c d, v.container? = some c → Relation.ReflTransGen st.Holds c d →
    ¬ Relation.TransGen st.Holds d d

theorem Acyclic.contents {c : Container} (h : st.Acyclic c.value) (hv : v ∈ st.contents c) :
    st.Acyclic v := by
  intro d e hd hreach
  obtain rfl := Container.eq_value hd
  exact h c e c.container?_value (.head hv hreach)

theorem Writes.never {t : String} (h : st.Writes .ancestors spot path v t) (hv : st.Acyclic v)
    (hpath : ∀ c, v.container? = some c → ∀ d ∈ path, Relation.TransGen st.Holds d c) :
    st.Writes .never spot path v t := by
  have hbelow : ∀ {c : Container} {path : List Container} {w : Value}, w ∈ st.contents c →
      (∀ d ∈ path, Relation.TransGen st.Holds d c) →
      ∀ e, w.container? = some e → ∀ d ∈ c :: path, Relation.TransGen st.Holds d e := by
    intro c path w hw hpath e he d hd
    obtain rfl := Container.eq_value he
    rcases List.mem_cons.mp hd with rfl | hd
    · exact .single hw
    · exact (hpath d hd).tail hw
  induction h with
  | text => exact .text
  | quoted => exact .quoted
  | scalar hcontainer hstr => exact .scalar hcontainer hstr
  | arrAgain hagain => exact absurd (hpath _ rfl _ hagain) (hv _ _ rfl .refl)
  | hashAgain hagain => exact absurd (hpath _ rfl _ hagain) (hv _ _ rfl .refl)
  | @arr spot path r text _ _ ih =>
    refine .arr text id fun w hw => ih w hw (Acyclic.contents (c := .arr r) hv hw) ?_
    exact hbelow (c := .arr r) hw (hpath _ rfl)
  | @hash spot path r text _ _ _ ihkeys ihvalues =>
    have hentry : ∀ e ∈ st.hash r, e.2 ∈ st.contents (.hash r) := fun e he =>
      List.mem_map_of_mem he
    refine .hash text id (fun e he => ihkeys e he ?_ ?_) fun e he => ihvalues e he ?_ ?_
    · intro c _ hc
      cases (e.1.container?_value).symm.trans hc
    · intro c hc
      cases (e.1.container?_value).symm.trans hc
    · exact Acyclic.contents (c := .hash r) hv (hentry e he)
    · exact hbelow (hentry e he) (hpath _ rfl)

theorem acyclic_of_rank {P : Container → Prop} (rank : Container → Nat)
    (hv : ∀ c, v.container? = some c → P c)
    (hstep : ∀ c d, P c → st.Holds c d → P d ∧ rank d < rank c) : st.Acyclic v := by
  intro c d hc hreach
  have hd : P d := by
    induction hreach with
    | refl => exact hv c hc
    | tail _ hholds ih => exact (hstep _ _ ih hholds).1
  have hlower : ∀ e, Relation.TransGen st.Holds d e → P e ∧ rank e < rank d := by
    intro e he
    induction he with
    | single hholds => exact hstep _ _ hd hholds
    | tail _ hholds ih =>
      obtain ⟨hnext, hlt⟩ := hstep _ _ ih.1 hholds
      exact ⟨hnext, Nat.lt_trans hlt ih.2⟩
  exact fun hcycle => Nat.lt_irrefl _ (hlower d hcycle).2

end Store

/-- Display of a value ends in one text, which the rules give for the guard of ancestors: a
container is written as an ellipsis exactly inside itself. If no cycle is reachable from the value,
the text is the plain one, in which every container is written out, however often it is shared. -/
theorem display_faithful (st : Store) :
    (∀ v t, st.Writes .ancestors .alone [] v t ↔ st.render v = t) ∧
    (∀ spot path c t, st.Writes .ancestors spot path c.value t → (t = c.ellipsis ↔ c ∈ path)) ∧
    (∀ v, st.Acyclic v → ∀ t, st.Writes .never .alone [] v t ↔ st.render v = t) := by
  refine ⟨fun _ _ => Store.writes_ancestors_iff, fun _ _ _ _ => Store.Writes.ellipsis_iff, ?_⟩
  intro v hv t
  have hguarded : st.Writes .ancestors .alone [] v (st.render v) :=
    Store.writes_ancestors_iff.mpr rfl
  have hplain : st.Writes .never .alone [] v (st.render v) := hguarded.never hv (by simp)
  constructor
  · exact hplain.unique
  · rintro rfl
    exact hplain

/-- An array that holds another one twice, and an array that holds itself and the first one. -/
def Store.shared : Store :=
  { Store.empty with
    arrays := #[#[.int 1], #[.arr ⟨0⟩, .arr ⟨0⟩, .str "x"], #[.arr ⟨2⟩, .arr ⟨1⟩]] }

theorem display_faithful_shared :
    Store.shared.Acyclic (.arr ⟨1⟩) ∧
    Store.shared.Writes .never .alone [] (.arr ⟨1⟩) "[[1], [1], \"x\"]" ∧
    Store.shared.Writes .ancestors .alone [] (.arr ⟨2⟩) "[[...], [[1], [1], \"x\"]]" ∧
    ("[...]" = Container.ellipsis (.arr ⟨2⟩) ↔ Container.arr ⟨2⟩ ∈ [Container.arr ⟨2⟩]) := by
  let rank (c : Container) : Nat := if c = .arr ⟨1⟩ then 1 else 0
  have hacyclic : Store.shared.Acyclic (.arr ⟨1⟩) := by
    refine Store.acyclic_of_rank (P := (· ∈ [.arr ⟨0⟩, .arr ⟨1⟩])) rank (by rintro _ ⟨⟩; simp) ?_
    intro c d hc hd
    rcases List.mem_pair.mp hc with rfl | rfl
    · replace hd : d.value ∈ [Value.int 1] := hd
      cases d <;> simp [Container.value] at hd
    · replace hd : d.value ∈ [Value.arr ⟨0⟩, .arr ⟨0⟩, .str "x"] := hd
      cases d with
      | arr r =>
        obtain rfl : r = ⟨0⟩ := by simpa [Container.value] using hd
        exact ⟨List.mem_cons_self, Nat.zero_lt_one⟩
      | hash r => simp [Container.value] at hd
  obtain ⟨hdisplay, hellipsis, hplain⟩ := display_faithful Store.shared
  refine ⟨hacyclic, (hplain _ hacyclic _).mpr (by decide +kernel),
    (hdisplay _ _).mpr (by decide +kernel), hellipsis .inside _ _ _ (.arrAgain ?_)⟩
  exact List.mem_singleton_self _

end StackVM
