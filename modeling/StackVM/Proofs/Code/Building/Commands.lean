import Mathlib.Data.List.Induction
import StackVM.Proofs.Code.Pieces.Filling

/-! # Builders and their commands

Commands ask a builder for pieces, and a label stands for the offset at which it was bound last.
Two invariants carry a run of commands: the bytes and the waiting operands are those of the pieces
asked for, and labels are bound as the commands say. Both need that every piece has bytes, because
a text that is too long leaves none and moves what follows.
-/
namespace StackVM
namespace Builder

/-- The pieces that a command asks for. -/
def Command.pieces : Command → List Piece
  | .label | .here | .bind _ => []
  | .emit i => [.plain i]
  | .jump branch target => [.branch branch target]
  | .closure entry params slots => [.closure entry params slots]
  | .patch site => [.patch site]
  | .link name site => [.plain ⟨.pushText, name⟩, .plain ⟨.resolveGlobal, ()⟩, .patch site]

def asked (commands : List Command) : List Piece := commands.flatMap Command.pieces

/-- How many labels commands create. -/
def created (commands : List Command) : Nat :=
  commands.countP fun c => c = .label ∨ c = .here

/-- The command binds the label, when so many labels exist already. -/
def Command.Binds (count : Nat) (l : Label) : Command → Prop
  | .here => l.index = count
  | .bind l' => l' = l ∧ l.index < count
  | _ => False

/-- The commands, given to a builder with this origin, bind the label at this offset and never
again. -/
def LastBound (origin : Nat) (commands : List Command) (l : Label) (pos : Nat) : Prop :=
  ∃ (k : Nat) (c : Command), commands[k]? = some c ∧ c.Binds (created (commands.take k)) l ∧
    pos = origin + sizeOfPieces (asked (commands.take k)) ∧
    ∀ j d, k < j → commands[j]? = some d → ¬ d.Binds (created (commands.take j)) l

/-- A builder after it was asked for a piece: the bytes, the operand to fill in, and the error that
waits. -/
structure Added (b : Builder) (x : Piece) (c : Builder) : Prop where
  origin : c.origin = b.origin
  labels : c.labels = b.labels
  error : c.error = b.error.or x.refusal?
  bytes : x.skeleton.Encodable → c.bytes.toList = b.bytes.toList ++ x.skeleton.bytes
  fixups : c.fixups.toList = b.fixups.toList ++ (x.fixup? b.origin b.bytes.size).toList

section Adding
variable (b : Builder)

theorem added_emit (i : Instr) : b.Added (.plain i) (b.emit i) := by
  by_cases h : i.Encodable
  · have hencode : i.encode = .ok i.bytes := if_pos h
    have hrefusal : (Piece.plain i).refusal? = none := if_pos h
    constructor <;> simp [emit, hencode, hrefusal, Piece.fixup?, Piece.skeleton]
  · have hencode : i.encode = .error (.textTooLong (i.size - 2)) := if_neg h
    have hrefusal : (Piece.plain i).refusal? = some (.textTooLong (i.size - 2)) := if_neg h
    constructor <;> simp [emit, hencode, hrefusal, Piece.fixup?, Piece.skeleton, h]

theorem added_emitRef (x : Piece) (fixup : (site next : Nat) → Fixup)
    (h : x.skeleton.Encodable) (hx : x.fixup? b.origin b.bytes.size =
      some (fixup (b.bytes.size + 1) (b.origin + (b.bytes.size + x.size)))) :
    b.Added x (b.emitRef x.skeleton fixup) := by
  have hplain := b.added_emit x.skeleton
  have hnext : (b.emit x.skeleton).offset = b.origin + (b.bytes.size + x.size) := by
    have hsize := congrArg List.length (hplain.bytes h)
    simp only [Array.length_toList, List.length_append] at hsize
    rw [offset, hplain.origin, hsize]
    simp [Piece.size, Piece.skeleton]
  refine ⟨hplain.origin, hplain.labels, hplain.error, hplain.bytes, ?_⟩
  have hfixups : (b.emit x.skeleton).fixups.toList = b.fixups.toList := by
    simpa [Piece.fixup?] using hplain.fixups
  rw [hx, ← hnext, emitRef, Array.toList_push, hfixups]
  rfl

theorem added_jump (kind : Branch) (l : Label) : b.Added (.branch kind l) (b.jump kind l) :=
  b.added_emitRef (.branch kind l) (fun site next => .relative site next l)
    (by cases kind <;> trivial) rfl

theorem added_closure (l : Label) (params slots : UInt8) :
    b.Added (.closure l params slots) (b.closure l params slots) :=
  b.added_emitRef (.closure l params slots) (fun site next => .relative site next l) trivial rfl

theorem added_patch (l : Label) : b.Added (.patch l) (b.patch l) :=
  b.added_emitRef (.patch l) (fun pos _ => .address pos l) trivial rfl

end Adding

/-- The builder was asked for these pieces: its error is that of the first piece without bytes, and
unless there is one its bytes and operands to fill in are those of the pieces. -/
structure Lays (b : Builder) (xs : List Piece) : Prop where
  error : b.error = xs.findSome? Piece.refusal?
  bytes : (∀ x ∈ xs, x.skeleton.Encodable) → b.bytes.toList = skeletonBytes xs
  fixups : (∀ x ∈ xs, x.skeleton.Encodable) → b.fixups.toList = fixupsFrom b.origin 0 xs

section Laying
variable {b c : Builder} {xs : List Piece} {x : Piece}

theorem Lays.size (h : b.Lays xs) (hall : ∀ x ∈ xs, x.skeleton.Encodable) :
    b.bytes.size = sizeOfPieces xs := by
  rw [← Array.length_toList, h.bytes hall, length_skeletonBytes]

theorem Lays.added (h : b.Lays xs) (hadd : b.Added x c) : c.Lays (xs ++ [x]) := by
  have hsplit : (∀ y ∈ xs ++ [x], y.skeleton.Encodable) →
      (∀ y ∈ xs, y.skeleton.Encodable) ∧ x.skeleton.Encodable := by
    intro hall
    exact ⟨fun y hy => hall y (by simp [hy]), hall x (by simp)⟩
  refine ⟨?_, fun hall => ?_, fun hall => ?_⟩
  · rw [hadd.error, h.error, List.findSome?_append, List.findSome?_singleton]
  · obtain ⟨hxs, hx⟩ := hsplit hall
    rw [hadd.bytes hx, h.bytes hxs]
    simp [skeletonBytes]
  · obtain ⟨hxs, hx⟩ := hsplit hall
    rw [hadd.fixups, h.fixups hxs, hadd.origin, fixupsFrom_append, h.size hxs, Nat.zero_add]

theorem Lays.perform (h : b.Lays xs) (command : Command) :
    (b.perform command).Lays (xs ++ command.pieces) := by
  cases command with
  | label | here | bind =>
    rw [Command.pieces, List.append_nil]
    exact ⟨h.error, h.bytes, h.fixups⟩
  | emit i => exact h.added (b.added_emit i)
  | jump kind l => exact h.added (b.added_jump kind l)
  | closure l params slots => exact h.added (b.added_closure l params slots)
  | patch l => exact h.added (b.added_patch l)
  | link name l =>
    have hname := h.added (b.added_emit ⟨.pushText, name⟩)
    have hresolve := hname.added (added_emit _ ⟨.resolveGlobal, ()⟩)
    have hpatch := hresolve.added (added_patch _ l)
    simp only [List.append_assoc] at hpatch
    exact hpatch

theorem Lays.performAll (h : b.Lays xs) (commands : List Command) :
    (b.performAll commands).Lays (xs ++ asked commands) := by
  induction commands generalizing b xs with
  | nil => simpa [asked, Builder.performAll] using h
  | cons command commands ih =>
    have hrest := ih (h.perform command)
    simpa [asked, Builder.performAll] using hrest

theorem lays_performAll (origin : Nat) (commands : List Command) :
    ((new origin).performAll commands).Lays (asked commands) :=
  @Lays.performAll (new origin) [] ⟨rfl, fun _ => rfl, fun _ => rfl⟩ commands

end Laying

section Binding
variable {b : Builder} {c : Command} {l : Label} {pos : Nat}

theorem labels_perform (b : Builder) (c : Command) :
    (b.perform c).labels =
      match c with
      | .label => b.labels.push none
      | .here => b.labels.push (some b.offset)
      | .bind l => b.labels.setIfInBounds l.index (some b.offset)
      | _ => b.labels := by
  cases c with
  | label | bind => rfl
  | here =>
    apply Array.ext'
    simp [perform, here, label, bind, offset, List.set_append_right]
  | emit i => exact (b.added_emit i).labels
  | jump kind l => exact (b.added_jump kind l).labels
  | closure l params slots => exact (b.added_closure l params slots).labels
  | patch l => exact (b.added_patch l).labels
  | link name l =>
    exact (added_patch _ l).labels.trans
      ((added_emit _ ⟨.resolveGlobal, ()⟩).labels.trans (b.added_emit ⟨.pushText, name⟩).labels)

theorem origin_perform (b : Builder) (c : Command) : (b.perform c).origin = b.origin := by
  cases c with
  | label | here | bind => rfl
  | emit i => exact (b.added_emit i).origin
  | jump kind l => exact (b.added_jump kind l).origin
  | closure l params slots => exact (b.added_closure l params slots).origin
  | patch l => exact (b.added_patch l).origin
  | link name l =>
    exact (added_patch _ l).origin.trans
      ((added_emit _ ⟨.resolveGlobal, ()⟩).origin.trans (b.added_emit ⟨.pushText, name⟩).origin)

theorem size_labels_perform (b : Builder) (c : Command) :
    (b.perform c).labels.size = b.labels.size + created [c] := by
  rw [labels_perform]
  cases c <;> simp [created]

theorem resolve_perform_of_binds (h : c.Binds b.labels.size l) :
    (b.perform c).resolve l = .ok b.offset := by
  rw [resolve_eq_ok_iff, labels_perform]
  cases c with
  | here =>
    have hindex : l.index = b.labels.size := h
    simp [hindex]
  | bind l' =>
    obtain ⟨rfl, hlt⟩ := h
    simp [hlt]
  | label | emit | jump | closure | patch | link => cases h

theorem resolve_perform_of_not_binds (h : ¬ c.Binds b.labels.size l) :
    (b.perform c).resolve l = .ok pos ↔ b.resolve l = .ok pos := by
  rw [resolve_eq_ok_iff, resolve_eq_ok_iff, labels_perform]
  cases c with
  | label =>
    rw [Array.getElem?_push]
    split
    next hindex => simp [hindex]
    next => rfl
  | here =>
    have hindex : l.index ≠ b.labels.size := h
    rw [Array.getElem?_push, if_neg hindex]
  | bind l' =>
    simp only [Command.Binds, not_and] at h
    rw [Array.getElem?_setIfInBounds]
    split
    next hindex =>
      have hlabel : l' = l := congrArg Label.mk hindex
      simp [hlabel, h hlabel]
    next => rfl
  | emit | jump | closure | patch | link => rfl

end Binding

section LastBound
variable {origin : Nat} {cs : List Command} {c : Command} {l : Label} {pos : Nat}

theorem created_append (cs ds : List Command) : created (cs ++ ds) = created cs + created ds :=
  List.countP_append

theorem asked_append (cs ds : List Command) : asked (cs ++ ds) = asked cs ++ asked ds :=
  List.flatMap_append

theorem lastBound_append_of_binds (h : c.Binds (created cs) l) :
    LastBound origin (cs ++ [c]) l pos ↔ pos = origin + sizeOfPieces (asked cs) := by
  constructor
  · rintro ⟨k, d, hk, hd, rfl, hlast⟩
    rcases getElem?_concat_eq_some_iff.mp hk with hk | ⟨rfl, -⟩
    · have hbefore : k < cs.length := (List.getElem?_eq_some_iff.mp hk).1
      refine absurd ?_ (hlast cs.length c hbefore (by simp))
      rwa [List.take_left]
    · rw [List.take_left]
  · rintro rfl
    refine ⟨cs.length, c, by simp, ?_, ?_, fun j d hj hd => ?_⟩
    · rwa [List.take_left]
    · rw [List.take_left]
    · have hlt : j < (cs ++ [c]).length := (List.getElem?_eq_some_iff.mp hd).1
      rw [List.length_append, List.length_singleton] at hlt
      omega

theorem lastBound_append_of_not_binds (h : ¬ c.Binds (created cs) l) :
    LastBound origin (cs ++ [c]) l pos ↔ LastBound origin cs l pos := by
  have htake : ∀ {k : Nat} {d : Command}, cs[k]? = some d → (cs ++ [c]).take k = cs.take k := by
    intro k d hk
    exact List.take_append_of_le_length (Nat.le_of_lt (List.getElem?_eq_some_iff.mp hk).1)
  constructor
  · rintro ⟨k, d, hk, hd, rfl, hlast⟩
    rcases getElem?_concat_eq_some_iff.mp hk with hk | ⟨rfl, rfl⟩
    · rw [htake hk] at hd ⊢
      refine ⟨k, d, hk, hd, rfl, fun j d' hj hj' => ?_⟩
      rw [← htake hj']
      exact hlast j d' hj (getElem?_concat_eq_some_iff.mpr (.inl hj'))
    · rw [List.take_left] at hd
      exact absurd hd h
  · rintro ⟨k, d, hk, hd, rfl, hlast⟩
    rw [← htake hk] at hd ⊢
    refine ⟨k, d, getElem?_concat_eq_some_iff.mpr (.inl hk), hd, rfl, fun j d' hj hj' => ?_⟩
    rcases getElem?_concat_eq_some_iff.mp hj' with hj' | ⟨rfl, rfl⟩
    · rw [htake hj']
      exact hlast j d' hj hj'
    · rwa [List.take_left]

theorem lastBound_unique (l : Label) (pos pos' : Nat) (h : LastBound origin cs l pos)
    (h' : LastBound origin cs l pos') : pos = pos' := by
  obtain ⟨k, c, hk, hc, rfl, hlast⟩ := h
  obtain ⟨j, d, hj, hd, rfl, hlast'⟩ := h'
  rcases Nat.lt_trichotomy k j with hlt | rfl | hlt
  · exact absurd hd (hlast j d hlt hj)
  · rfl
  · exact absurd hc (hlast' k c hlt hk)

end LastBound

section Labels
variable (origin : Nat) (cs : List Command)

theorem performAll_concat (b : Builder) (cs : List Command) (c : Command) :
    b.performAll (cs ++ [c]) = (b.performAll cs).perform c :=
  List.foldl_append

theorem origin_performAll : ((new origin).performAll cs).origin = origin := by
  induction cs using List.reverseRecOn with
  | nil => rfl
  | append_singleton cs c ih => rw [performAll_concat, origin_perform, ih]

theorem size_labels_performAll : ((new origin).performAll cs).labels.size = created cs := by
  induction cs using List.reverseRecOn with
  | nil => rfl
  | append_singleton cs c ih =>
    rw [performAll_concat, size_labels_perform, ih, created_append]

theorem resolve_performAll (hall : ∀ x ∈ asked cs, x.skeleton.Encodable) (l : Label) (pos : Nat) :
    ((new origin).performAll cs).resolve l = .ok pos ↔ LastBound origin cs l pos := by
  induction cs using List.reverseRecOn with
  | nil => simp [performAll, new, resolve, LastBound]
  | append_singleton cs c ih =>
    rw [asked_append] at hall
    have hbefore : ∀ x ∈ asked cs, x.skeleton.Encodable := fun x hx =>
      hall x (List.mem_append_left _ hx)
    have hcount := size_labels_performAll origin cs
    rw [performAll_concat]
    by_cases hbinds : c.Binds (created cs) l
    · rw [lastBound_append_of_binds hbinds, resolve_perform_of_binds (hcount ▸ hbinds), offset,
        origin_performAll, (lays_performAll origin cs).size hbefore, Except.ok.injEq, eq_comm]
    · rw [lastBound_append_of_not_binds hbinds, resolve_perform_of_not_binds (hcount ▸ hbinds),
        ih hbefore]

end Labels

end Builder
end StackVM
