import StackVM.Proofs.Code.Pieces.Filling
import StackVM.Proofs.Code.Relink

/-! # The code of links

A builder links a name to a site by three instructions: push the name, resolve it, patch the
operand behind the site's opcode. The patched address waits for its label, which may be bound long
after the link, and is filled in when the builder finishes. Every operand that waits has bytes of
its own, appended together with it, so the other operands are filled in beside the links and the
code of the links depends on their names and sites only.
-/
namespace StackVM

/-- The instructions that link a name to a site. -/
def linkInstrs (pair : String × Nat) : List Instr :=
  [⟨.pushText, pair.1⟩, ⟨.resolveGlobal, ()⟩, ⟨.patch, UInt16.ofNat (pair.2 + 1)⟩]

/-- The bytes of a link up to the address that it patches. -/
def linkHead (name : String) : List UInt8 :=
  Instr.bytes ⟨.pushText, name⟩ ++ Instr.bytes ⟨.resolveGlobal, ()⟩ ++ [Opcode.patch.toByte]

theorem bytes_linkInstrs {pair : String × Nat} (h : pair.2 + 1 < 65536) :
    (linkInstrs pair).flatMap Instr.bytes = linkHead pair.1 ++ bytesLE 2 (pair.2 + 1) := by
  simp [linkInstrs, linkHead, Instr.bytes, Shape.operandBytes, Opcode.shape,
    Nat.mod_eq_of_lt h]

/-- A link as it is built, with the address still open. -/
def openLink (ref : String × Label) : List UInt8 := linkHead ref.1 ++ [0, 0]

namespace Builder
variable {b c d : Builder}

/-- The builder `c` is `b` after more bytes, with more operands to fill in. -/
structure Adds (b : Builder) (bytes : List UInt8) (fixups : List Fixup) (c : Builder) : Prop where
  bytes : c.bytes.toList = b.bytes.toList ++ bytes
  fixups : c.fixups.toList = b.fixups.toList ++ fixups

theorem Adds.size {bytes : List UInt8} {fixups : List Fixup} (h : b.Adds bytes fixups c) :
    c.bytes.size = b.bytes.size + bytes.length := by
  have hlength := congrArg List.length h.bytes
  simpa using hlength

theorem Adds.trans {x y : List UInt8} {f g : List Fixup} (h : b.Adds x f c) (h' : c.Adds y g d) :
    b.Adds (x ++ y) (f ++ g) d where
  bytes := by rw [h'.bytes, h.bytes, List.append_assoc]
  fixups := by rw [h'.fixups, h.fixups, List.append_assoc]

/-- Whatever was appended, the operands to fill in stand in it. -/
def Grows (b c : Builder) : Prop :=
  ∃ bytes fixups, b.Adds bytes fixups c ∧
    ∀ f ∈ fixups, b.bytes.size ≤ f.pos ∧ f.pos + 2 ≤ c.bytes.size

theorem Grows.refl (b : Builder) : b.Grows b := ⟨[], [], ⟨by simp, by simp⟩, by simp⟩

theorem Grows.trans (h : b.Grows c) (h' : c.Grows d) : b.Grows d := by
  obtain ⟨x, f, hbc, hf⟩ := h
  obtain ⟨y, g, hcd, hg⟩ := h'
  have hc := hbc.size
  have hd := hcd.size
  refine ⟨_, _, hbc.trans hcd, fun e he => ?_⟩
  rcases List.mem_append.mp he with he | he
  · have := hf e he
    omega
  · have := hg e he
    omega

theorem adds_emit {i : Instr} (h : i.Encodable) (b : Builder) : b.Adds i.bytes [] (b.emit i) := by
  have hencode : i.encode = .ok i.bytes := Instr.encode_eq_ok_iff.mpr ⟨h, rfl⟩
  simp only [emit, hencode]
  exact ⟨by simp, by simp⟩

theorem grows_emit (b : Builder) (i : Instr) : b.Grows (b.emit i) := by
  by_cases h : i.Encodable
  · exact ⟨_, _, adds_emit h b, by simp⟩
  · cases hencode : i.encode with
    | ok bytes => exact absurd (Instr.encode_eq_ok_iff.mp hencode).1 h
    | error e =>
      refine ⟨[], [], ?_, by simp⟩
      simp only [emit, hencode]
      exact ⟨by simp, by simp⟩

theorem adds_emitRef {i : Instr} (h : i.Encodable) (b : Builder)
    (fixup : (site next : Nat) → Fixup) :
    b.Adds i.bytes [fixup (b.bytes.size + 1) (b.emit i).offset] (b.emitRef i fixup) where
  bytes := (adds_emit h b).bytes
  fixups := by
    have hfixups := (adds_emit h b).fixups
    simpa [emitRef] using hfixups

theorem grows_emitRef {i : Instr} {fixup : (site next : Nat) → Fixup} (h : i.Encodable)
    (hsize : 3 ≤ i.size) (hpos : ∀ site next, (fixup site next).pos = site) (b : Builder) :
    b.Grows (b.emitRef i fixup) := by
  have hadds := adds_emitRef h b fixup
  have hend := hadds.size
  rw [Instr.bytes_length] at hend
  refine ⟨_, _, hadds, fun f hf => ?_⟩
  rw [List.mem_singleton.mp hf, hpos]
  omega

theorem grows_jump (b : Builder) (branch : Branch) (target : Label) :
    b.Grows (b.jump branch target) := by
  apply grows_emitRef
  · cases branch <;> exact True.intro
  · cases branch <;> decide
  · exact fun _ _ => rfl

theorem grows_closure (b : Builder) (entry : Label) (params slots : UInt8) :
    b.Grows (b.closure entry params slots) := by
  apply grows_emitRef
  · exact True.intro
  · simp [Instr.size, Shape.operandSize, Opcode.shape]
  · exact fun _ _ => rfl

theorem grows_patch (b : Builder) (site : Label) : b.Grows (b.patch site) := by
  apply grows_emitRef
  · exact True.intro
  · decide
  · exact fun _ _ => rfl

theorem grows_perform (b : Builder) (command : Command) : b.Grows (b.perform command) := by
  cases command with
  | label | here | bind =>
    refine ⟨[], [], ⟨?_, ?_⟩, by simp⟩
    · simp [perform, label, here, bind]
    · simp [perform, label, here, bind]
  | emit i => exact b.grows_emit i
  | jump branch target => exact b.grows_jump branch target
  | closure entry params slots => exact b.grows_closure entry params slots
  | patch site => exact b.grows_patch site
  | link name site => exact (b.grows_emit _).trans ((grows_emit _ _).trans (grows_patch _ site))

theorem grows_performAll (b : Builder) (commands : List Command) :
    b.Grows (b.performAll commands) := by
  induction commands generalizing b with
  | nil => exact .refl b
  | cons command commands ih => exact (b.grows_perform command).trans (ih _)

/-- Link several names to labels, one after the other. -/
def linkAll (b : Builder) (refs : List (String × Label)) : Builder :=
  b.performAll (refs.map fun ref => .link ref.1 ref.2)

/-- The addresses to fill in after links from a position on. -/
def linkFixups (pos : Nat) : List (String × Label) → List Fixup
  | [] => []
  | ref :: refs =>
    let site := pos + (linkHead ref.1).length
    .address site ref.2 :: linkFixups (site + 2) refs

theorem le_pos_of_mem_linkFixups {refs : List (String × Label)} {pos : Nat} {f : Fixup}
    (h : f ∈ linkFixups pos refs) : pos ≤ f.pos := by
  induction refs generalizing pos with
  | nil => cases h
  | cons ref refs ih =>
    rcases List.mem_cons.mp h with rfl | h
    · simp [Fixup.pos]
    · have hle := ih h
      omega

theorem adds_link {ref : String × Label} (h : ref.1.utf8ByteSize ≤ 255) (b : Builder) :
    b.Adds (openLink ref) [.address (b.bytes.size + (linkHead ref.1).length) ref.2]
      (b.link ref.1 ref.2) := by
  have htext : Instr.Encodable ⟨.pushText, ref.1⟩ := h
  have hpush := adds_emit htext b
  have hresolve := hpush.trans (adds_emit (i := ⟨.resolveGlobal, ()⟩) trivial _)
  have hpatch := adds_emitRef (i := ⟨.patch, (0 : UInt16)⟩) trivial
    ((b.emit ⟨.pushText, ref.1⟩).emit ⟨.resolveGlobal, ()⟩) fun pos _ => .address pos ref.2
  have hpos := hresolve.size
  have hbytes : openLink ref = Instr.bytes ⟨.pushText, ref.1⟩ ++ Instr.bytes ⟨.resolveGlobal, ()⟩ ++
      Instr.bytes ⟨.patch, (0 : UInt16)⟩ := by
    simp only [openLink, linkHead, List.append_assoc]
    rfl
  have hlength : (linkHead ref.1).length =
      (Instr.bytes ⟨.pushText, ref.1⟩ ++ Instr.bytes ⟨.resolveGlobal, ()⟩).length + 1 := by
    rw [linkHead, List.length_append, List.length_singleton]
  have hlink := hresolve.trans hpatch
  rw [hpos, Nat.add_assoc, ← hlength, ← hbytes] at hlink
  exact hlink

theorem adds_linkAll {refs : List (String × Label)}
    (h : ∀ ref ∈ refs, ref.1.utf8ByteSize ≤ 255) (b : Builder) :
    b.Adds (refs.flatMap openLink) (linkFixups b.bytes.size refs) (b.linkAll refs) := by
  induction refs generalizing b with
  | nil => exact ⟨by simp [linkAll, performAll], by simp [linkAll, performAll, linkFixups]⟩
  | cons ref refs ih =>
    obtain ⟨hname, hrest⟩ := List.forall_mem_cons.mp h
    have hfirst := adds_link hname b
    have hmore := ih hrest (b.link ref.1 ref.2)
    have hsize : (b.link ref.1 ref.2).bytes.size = b.bytes.size + (linkHead ref.1).length + 2 := by
      rw [hfirst.size, openLink, List.length_append, Nat.add_assoc]
      rfl
    rw [hsize] at hmore
    exact hfirst.trans hmore

theorem finish_eq_ok {unit : Program} (h : b.finish = .ok unit) :
    b.fixups.toList.foldlM b.fill ⟨b.bytes⟩ = .ok unit := by
  unfold finish at h
  split at h
  next => cases h
  next => rwa [Array.foldlM_toList]

theorem writeWord_of_fill {p q : Program} {f : Fixup} (h : b.fill p f = .ok q) :
    ∃ value, p.writeWord f.pos value = .ok q := by
  rw [fill_eq] at h
  obtain ⟨value, -, hwrite⟩ := bind_eq_ok_iff.mp h
  exact ⟨value, hwrite⟩

theorem holdsAt_foldlM_fill {fixups : List Fixup} {p q : Program} {a : Nat} {bytes : List UInt8}
    (h : fixups.foldlM b.fill p = .ok q) (hat : HoldsAt p.bytes a bytes)
    (hapart : ∀ f ∈ fixups, f.pos + 2 ≤ a ∨ a + bytes.length ≤ f.pos) :
    HoldsAt q.bytes a bytes := by
  induction fixups generalizing p with
  | nil =>
    cases h
    exact hat
  | cons f fixups ih =>
    obtain ⟨hf, hrest⟩ := List.forall_mem_cons.mp hapart
    obtain ⟨r, hfill, hmore⟩ := bind_eq_ok_iff.mp h
    obtain ⟨value, hwrite⟩ := writeWord_of_fill hfill
    exact ih hmore (hat.of_writeWord hwrite hf) hrest

/-- A reference of a link and the name and the site that it comes to. -/
def Refers (b : Builder) (ref : String × Label) (pair : String × Nat) : Prop :=
  ref.1 = pair.1 ∧ b.resolve ref.2 = .ok pair.2

theorem fill_address {pos site : Nat} {l : Label} (hl : b.resolve l = .ok site)
    (hsite : site + 1 < 65536) (p : Program) :
    b.fill p (.address pos l) = p.writeWord pos (UInt16.ofNat (site + 1)) := by
  have haddress : operandAddress (b.origin + pos) site = .ok (UInt16.ofNat (site + 1)) :=
    if_pos hsite
  change (b.resolve l >>= fun site => operandAddress (b.origin + pos) site >>= p.writeWord pos) = _
  rw [hl]
  change (operandAddress (b.origin + pos) site >>= p.writeWord pos) = _
  rw [haddress]
  rfl

section Links
variable {refs : List (String × Label)} {pairs : List (String × Nat)}

theorem names_eq (h : List.Forall₂ b.Refers refs pairs) :
    refs.map Prod.fst = pairs.map Prod.fst := by
  induction h with
  | nil => rfl
  | cons hpair _ ih => rw [List.map_cons, List.map_cons, hpair.1, ih]

theorem length_links (h : List.Forall₂ b.Refers refs pairs)
    (hsites : ∀ pair ∈ pairs, pair.2 + 1 < 65536) :
    ((pairs.flatMap linkInstrs).flatMap Instr.bytes).length = (refs.flatMap openLink).length := by
  induction h with
  | nil => rfl
  | cons hpair _ ih =>
    obtain ⟨hsite, hrest⟩ := List.forall_mem_cons.mp hsites
    simp only [List.flatMap_cons, List.flatMap_append, List.length_append, ih hrest,
      bytes_linkInstrs hsite, openLink, hpair.1, bytesLE_length]
    rfl

/-- The open addresses of links are filled in one after the other: each write closes the first open
link, and the ones after it leave that link alone. -/
theorem holdsAt_links (h : List.Forall₂ b.Refers refs pairs)
    (hsites : ∀ pair ∈ pairs, pair.2 + 1 < 65536) {p q : Program} {a : Nat}
    (hfill : (linkFixups a refs).foldlM b.fill p = .ok q)
    (hat : HoldsAt p.bytes a (refs.flatMap openLink)) :
    HoldsAt q.bytes a ((pairs.flatMap linkInstrs).flatMap Instr.bytes) := by
  induction h generalizing p a with
  | nil => simp
  | @cons ref pair refs pairs hpair _ ih =>
    obtain ⟨hname, hlabel⟩ := hpair
    obtain ⟨hsite, hrest⟩ := List.forall_mem_cons.mp hsites
    obtain ⟨r, hfirst, hmore⟩ := bind_eq_ok_iff.mp hfill
    rw [fill_address hlabel hsite] at hfirst
    rw [List.flatMap_cons, openLink, List.append_assoc, HoldsAt.append_iff,
      HoldsAt.append_iff] at hat
    obtain ⟨hhead, -, hopen⟩ := hat
    have hvalue : (UInt16.ofNat (pair.2 + 1)).toNat = pair.2 + 1 :=
      UInt16.toNat_ofNat_of_lt' hsite
    have hword := Program.holdsAt_of_writeWord hfirst
    rw [hvalue] at hword
    have hclosed : HoldsAt r.bytes a (linkHead ref.1 ++ bytesLE 2 (pair.2 + 1)) :=
      HoldsAt.append_iff.mpr ⟨hhead.of_writeWord hfirst (.inr (Nat.le_refl _)), hword⟩
    have hlater := ih hrest hmore (hopen.of_writeWord hfirst (.inl (Nat.le_refl _)))
    have hkept := holdsAt_foldlM_fill hmore hclosed fun f hf => by
      have hle := le_pos_of_mem_linkFixups hf
      right
      rw [List.length_append, bytesLE_length]
      omega
    rw [List.flatMap_cons, List.flatMap_append, bytes_linkInstrs hsite, ← hname,
      HoldsAt.append_iff]
    refine ⟨hkept, ?_⟩
    rw [List.length_append, bytesLE_length, ← Nat.add_assoc]
    exact hlater

end Links
end Builder

/-- The bytes of links of these names to these sites, one after the other, in a unit that a builder
finishes. Before and after the links it may do anything, and it may bind their labels at any time,
as long as they are bound to the sites in the end. -/
def LinkCode (pairs : List (String × Nat)) (code : List UInt8) : Prop :=
  ∃ (origin : Nat) (before after : List Builder.Command) (refs : List (String × Label))
    (unit : Program),
    let b := (Builder.new origin).performAll before
    let linked := b.linkAll refs
    let last := linked.performAll after
    List.Forall₂ last.Refers refs pairs ∧ last.finish = .ok unit ∧
      code = (unit.bytes.extract b.bytes.size linked.bytes.size).toList

theorem LinkCode.eq {pairs : List (String × Nat)} {code : List UInt8} (h : LinkCode pairs code)
    (hnames : ∀ pair ∈ pairs, pair.1.utf8ByteSize ≤ 255)
    (hsites : ∀ pair ∈ pairs, pair.2 + 1 < 65536) :
    code = (pairs.flatMap linkInstrs).flatMap Instr.bytes := by
  obtain ⟨origin, before, after, refs, unit, hrefs, hfinish, rfl⟩ := h
  generalize hb : (Builder.new origin).performAll before = b at *
  generalize hlast : (b.linkAll refs).performAll after = last at *
  have hshort : ∀ ref ∈ refs, ref.1.utf8ByteSize ≤ 255 := by
    intro ref hmem
    have hname : ref.1 ∈ pairs.map Prod.fst := by
      rw [← Builder.names_eq hrefs]
      exact List.mem_map_of_mem hmem
    obtain ⟨pair, hpair, heq⟩ := List.mem_map.mp hname
    rw [← heq]
    exact hnames pair hpair
  obtain ⟨x, f, hbefore, hf⟩ := (Builder.new origin).grows_performAll before
  have hlinks := Builder.adds_linkAll hshort b
  obtain ⟨y, g, hafter, hg⟩ := (b.linkAll refs).grows_performAll after
  rw [hb] at hbefore hf
  rw [hlast] at hafter hg
  have hfixups : last.fixups.toList = f ++ Builder.linkFixups b.bytes.size refs ++ g := by
    rw [hafter.fixups, hlinks.fixups, hbefore.fixups]
    rfl
  have hopen : HoldsAt last.bytes b.bytes.size (refs.flatMap openLink) := by
    rw [HoldsAt, hafter.bytes, hlinks.bytes]
    simp
  have hsize := hlinks.size
  have hlength := Builder.length_links hrefs hsites
  have hfilled := Builder.finish_eq_ok hfinish
  rw [hfixups, List.foldlM_append] at hfilled
  obtain ⟨q, hfilled, hlate⟩ := bind_eq_ok_iff.mp hfilled
  rw [List.foldlM_append] at hfilled
  obtain ⟨p, hearly, hfilled⟩ := bind_eq_ok_iff.mp hfilled
  have hstill := Builder.holdsAt_foldlM_fill hearly hopen fun e he => .inl (hf e he).2
  have hclosed := Builder.holdsAt_links hrefs hsites hfilled hstill
  have hunit := Builder.holdsAt_foldlM_fill hlate hclosed fun e he => by
    have hle := (hg e he).1
    omega
  have hcode := HoldsAt.iff_extract.mp hunit
  rwa [hlength, ← hsize] at hcode

end StackVM
