import StackVM.Proofs.Asm.Lines

/-! # Blanks and comments

Where the scanner stands is code, a literal, the character after a backslash in a literal, or a
comment, and this depends on the quotes, backslashes and semicolons before it alone. Outside
literals a blank next to a blank changes nothing.
-/
namespace StackVM

/-- What a character of a line belongs to. -/
inductive Zone
  | code
  | literal
  | escaped
  | comment
  deriving DecidableEq

namespace Zone

def next : Zone → Char → Zone
  | .code, c => if c = '"' then .literal else if c = ';' then .comment else .code
  | .literal, c => if c = '"' then .code else if c = '\\' then .escaped else .literal
  | .escaped, _ => .literal
  | .comment, _ => .comment

/-- Where the character after these, the first ones of a line, stands. -/
def after (cs : List Char) : Zone := cs.foldl next .code

def OutsideLiteral (z : Zone) : Prop := z = .code ∨ z = .comment

instance (z : Zone) : Decidable z.OutsideLiteral := inferInstanceAs (Decidable (_ ∨ _))

end Zone

def ScanMode.zone : ScanMode → Zone
  | .gap | .word _ => .code
  | .text _ => .literal
  | .escape _ => .escaped
  | .comment => .comment

/-- Blanks that do not end the line. -/
def IsGap (cs : List Char) : Prop := ∀ c ∈ cs, Text.isBlank c = true ∧ c ≠ '\n'

instance (cs : List Char) : Decidable (IsGap cs) :=
  decidable_of_iff (cs.all fun c => Text.isBlank c && c != '\n') (by simp [IsGap])

/-- Characters that the scanner keeps together. -/
def IsWord (cs : List Char) : Prop := cs ≠ [] ∧ ∀ c ∈ cs, Scan.endsWord c = false

instance (cs : List Char) : Decidable (IsWord cs) :=
  decidable_of_iff (cs ≠ [] ∧ cs.all fun c => !Scan.endsWord c) (by simp [IsWord])

/-- A word in the place of a label. -/
def IsLabelWord (cs : List Char) : Prop := IsWord cs ∧ cs.getLast? = some ':'

instance (cs : List Char) : Decidable (IsLabelWord cs) := inferInstanceAs (Decidable (_ ∧ _))

/-- A word before these characters ends there. -/
def EndsWord (cs : List Char) : Prop := ∀ c ∈ cs.head?, Scan.endsWord c = true

instance (cs : List Char) : Decidable (EndsWord cs) :=
  decidable_of_iff (cs.head?.all Scan.endsWord) (by simp [EndsWord, Option.all_eq_true])

theorem isGap_nil : IsGap [] := by decide

theorem isGap_return : IsGap ['\r'] := by decide

theorem ne_of_isBlank {c : Char} (h : Text.isBlank c = true) : c ≠ ';' ∧ c ≠ '"' ∧ c ≠ '\\' := by
  refine ⟨?_, ?_, ?_⟩ <;> rintro rfl <;> cases h

theorem endsWord_of_isBlank {c : Char} (h : Text.isBlank c = true) : Scan.endsWord c = true := by
  simp [Scan.endsWord, h]

theorem Zone.outsideLiteral_of_next {z : Zone} {c : Char} (hc : Text.isBlank c = true)
    (h : (z.next c).OutsideLiteral) : z.OutsideLiteral := by
  obtain ⟨-, hquote, hslash⟩ := ne_of_isBlank hc
  cases z with
  | code | comment => simp [OutsideLiteral]
  | literal => simp [OutsideLiteral, next, hquote, hslash] at h
  | escaped => simp [OutsideLiteral, next] at h

namespace Scan
variable {s s' : Scan} {b c : Char} {cs : List Char}

theorem opening_of_isBlank (h : Text.isBlank b = true) : opening b = .gap := by
  simp [opening, h, (ne_of_isBlank h).1]

theorem zone_opening (c : Char) : (opening c).zone = Zone.code.next c := by
  unfold opening Zone.next
  by_cases hsemicolon : c = ';'
  · subst hsemicolon
    rfl
  · by_cases hblank : Text.isBlank c = true
    · simp [hblank, hsemicolon, (ne_of_isBlank hblank).2.1, ScanMode.zone]
    · by_cases hquote : c = '"' <;> simp_all [ScanMode.zone]

/-- The zone after a character depends on the zone before it. -/
theorem zone_step (h : s.step c = .ok s') : s'.mode.zone = s.mode.zone.next c := by
  obtain ⟨tokens, mode⟩ := s
  cases mode with
  | gap =>
    cases h
    exact zone_opening c
  | word rev =>
    unfold step at h
    dsimp only at h
    split at h
    next =>
      obtain ⟨t, -, hs'⟩ := bind_eq_ok_iff.mp h
      cases hs'
      exact zone_opening c
    next hword =>
      cases h
      have hne : c ≠ '"' ∧ c ≠ ';' := by
        constructor <;> rintro rfl <;> exact hword rfl
      simp [ScanMode.zone, Zone.next, hne]
  | text rev =>
    unfold step at h
    dsimp only at h
    by_cases hquote : c = '"'
    · rw [if_pos hquote] at h
      cases h
      simp [ScanMode.zone, Zone.next, hquote]
    · rw [if_neg hquote] at h
      by_cases hslash : c = '\\'
      · rw [if_pos hslash] at h
        cases h
        simp [ScanMode.zone, Zone.next, hslash]
      · rw [if_neg hslash] at h
        cases h
        simp [ScanMode.zone, Zone.next, hquote, hslash]
  | escape rev =>
    unfold step at h
    dsimp only at h
    split at h <;> cases h
    rfl
  | comment =>
    cases h
    rfl

theorem zone_foldlM (h : cs.foldlM step s = .ok s') :
    s'.mode.zone = cs.foldl Zone.next s.mode.zone := by
  induction cs generalizing s with
  | nil =>
    cases h
    rfl
  | cons c cs ih =>
    rw [List.foldlM_cons] at h
    obtain ⟨mid, hmid, hrest⟩ := bind_eq_ok_iff.mp h
    rw [ih hrest, zone_step hmid, List.foldl_cons]

/-- The tokens of a line that goes on with these characters. -/
def read (s : Scan) (cs : List Char) : Except LineFault (List Token) := do
  (← cs.foldlM step s).finish

theorem read_cons (s : Scan) (c : Char) (cs : List Char) :
    s.read (c :: cs) = s.step c >>= fun s => s.read cs := by
  simp only [read, List.foldlM_cons, bind_assoc]

theorem read_append (s : Scan) (cs ds : List Char) :
    s.read (cs ++ ds) = cs.foldlM step s >>= fun s => s.read ds := by
  simp only [read, List.foldlM_append, bind_assoc]

/-- The scan with these tokens before its own. -/
def behind (tokens : List Token) (s : Scan) : Scan := ⟨s.tokens ++ tokens, s.mode⟩

theorem step_behind (tokens : List Token) (s : Scan) (c : Char) :
    (s.behind tokens).step c = behind tokens <$> s.step c := by
  obtain ⟨own, mode⟩ := s
  cases mode with
  | gap | comment => rfl
  | word rev =>
    unfold step behind
    dsimp only
    cases Token.ofWord rev.reverse <;> split <;> rfl
  | text rev =>
    unfold step behind
    dsimp only
    split
    · rfl
    · split <;> rfl
  | escape rev =>
    unfold step behind
    dsimp only
    cases Text.unescape? c <;> rfl

theorem finish_behind (tokens : List Token) (s : Scan) :
    (s.behind tokens).finish = (tokens.reverse ++ ·) <$> s.finish := by
  obtain ⟨own, mode⟩ := s
  cases mode with
  | gap | comment => simp [finish, behind]
  | word rev =>
    unfold finish behind
    dsimp only
    cases Token.ofWord rev.reverse <;> simp
  | text rev | escape rev => rfl

/-- Finished tokens are inert. -/
theorem read_behind (tokens : List Token) (s : Scan) (cs : List Char) :
    (s.behind tokens).read cs = (tokens.reverse ++ ·) <$> s.read cs := by
  induction cs generalizing s with
  | nil => exact finish_behind tokens s
  | cons c cs ih =>
    rw [read_cons, step_behind, read_cons, bind_map_left, map_bind]
    exact bind_congr fun s => ih s

theorem step_of_isBlank (hout : s.mode.zone.OutsideLiteral) (hb : Text.isBlank b = true)
    (hc : Text.isBlank c = true) : s.step b = s.step c := by
  obtain ⟨tokens, mode⟩ := s
  cases mode with
  | gap => simp [step, opening_of_isBlank hb, opening_of_isBlank hc]
  | word rev =>
    simp [step, opening_of_isBlank hb, opening_of_isBlank hc, endsWord_of_isBlank hb,
      endsWord_of_isBlank hc]
  | text rev | escape rev => rcases hout with h | h <;> cases h
  | comment => rfl

theorem step_after_isBlank (hout : s.mode.zone.OutsideLiteral) (hc : Text.isBlank c = true)
    (h : s.step c = .ok s') (hb : Text.isBlank b = true) : s'.step b = .ok s' := by
  have hgap : ∀ tokens, step ⟨tokens, .gap⟩ b = .ok ⟨tokens, .gap⟩ := by
    intro tokens
    simp [step, opening_of_isBlank hb]
  obtain ⟨tokens, mode⟩ := s
  cases mode with
  | gap =>
    cases h
    rw [opening_of_isBlank hc]
    exact hgap tokens
  | word rev =>
    unfold step at h
    dsimp only at h
    rw [if_pos (endsWord_of_isBlank hc)] at h
    obtain ⟨t, -, hs'⟩ := bind_eq_ok_iff.mp h
    cases hs'
    rw [opening_of_isBlank hc]
    exact hgap (t :: tokens)
  | text rev | escape rev => rcases hout with h | h <;> cases h
  | comment =>
    cases h
    rfl

theorem finish_step_isBlank (hb : Text.isBlank b = true) {ts : List Token} :
    (s.step b >>= finish) = .ok ts ↔ s.finish = .ok ts := by
  obtain ⟨hsemicolon, hquote, hslash⟩ := ne_of_isBlank hb
  obtain ⟨tokens, mode⟩ := s
  cases mode with
  | gap => simp [step, opening_of_isBlank hb, ok_bind, finish]
  | word rev =>
    unfold step
    dsimp only
    rw [if_pos (endsWord_of_isBlank hb)]
    cases ht : Token.ofWord rev.reverse with
    | error e => simp [finish, ht, error_bind]
    | ok t => simp [finish, ht, opening_of_isBlank hb, ok_bind, pure, Except.pure]
  | text rev => simp [step, hquote, hslash, ok_bind, finish]
  | escape rev =>
    unfold step
    dsimp only
    cases Text.unescape? b <;> simp [finish, ok_bind, error_bind]
  | comment => rfl

theorem read_gap {gap : List Char} (hgap : IsGap gap) {ts : List Token} :
    s.read gap = .ok ts ↔ s.finish = .ok ts := by
  induction gap generalizing s with
  | nil => rfl
  | cons b gap ih =>
    obtain ⟨⟨hb, -⟩, hgap⟩ := List.forall_mem_cons.mp hgap
    rw [← finish_step_isBlank hb, read_cons, bind_eq_ok_iff, bind_eq_ok_iff]
    simp only [ih hgap]

theorem read_comment {ts : List Token} (h : s.finish = .ok ts) (note : List Char) :
    s.read (';' :: note) = .ok ts := by
  have hnote : ∀ (tokens : List Token) (note : List Char),
      read ⟨tokens, .comment⟩ note = .ok tokens.reverse := by
    intro tokens note
    induction note with
    | nil => rfl
    | cons c note ih => exact ih
  obtain ⟨tokens, mode⟩ := s
  cases mode with
  | gap | comment =>
    cases h
    exact hnote tokens note
  | word rev =>
    obtain ⟨t, ht, hts⟩ := bind_eq_ok_iff.mp h
    cases hts
    have hstep : step ⟨tokens, .word rev⟩ ';' = .ok ⟨t :: tokens, .comment⟩ := by
      change (do return Scan.mk ((← Token.ofWord rev.reverse) :: tokens) .comment) = _
      rw [ht]
      rfl
    rw [read_cons, hstep]
    exact hnote (t :: tokens) note
  | text rev | escape rev => cases h

theorem foldlM_gap {gap : List Char} (hgap : IsGap gap) (tokens : List Token) :
    gap.foldlM step ⟨tokens, .gap⟩ = .ok ⟨tokens, .gap⟩ := by
  induction gap with
  | nil => rfl
  | cons b gap ih =>
    obtain ⟨⟨hb, -⟩, hgap⟩ := List.forall_mem_cons.mp hgap
    have hstep : step ⟨tokens, .gap⟩ b = .ok ⟨tokens, .gap⟩ := by
      simp [step, opening_of_isBlank hb]
    rw [foldlM_cons_ok hstep, ih hgap]

theorem foldlM_isWord {word : List Char} (h : IsWord word) (tokens : List Token) :
    word.foldlM step ⟨tokens, .gap⟩ = .ok ⟨tokens, .word word.reverse⟩ := by
  obtain ⟨hne, hword⟩ := h
  obtain ⟨c, cs, rfl⟩ := List.exists_cons_of_ne_nil hne
  obtain ⟨hc, hcs⟩ := List.forall_mem_cons.mp hword
  have hstep : step ⟨tokens, .gap⟩ c = .ok ⟨tokens, .word [c]⟩ := by
    simp [step, opening_of_endsWord hc]
  rw [foldlM_cons_ok hstep, foldlM_word hcs, List.reverse_cons]

theorem read_word {word : List Char} (hcs : EndsWord cs) (tokens : List Token) :
    read ⟨tokens, .word word.reverse⟩ cs =
      Token.ofWord word >>= fun t => read ⟨t :: tokens, .gap⟩ cs := by
  cases cs with
  | nil =>
    change (do return ((← Token.ofWord word.reverse.reverse) :: tokens).reverse) = _
    rw [List.reverse_reverse]
    rfl
  | cons c cs =>
    have hstep : step ⟨tokens, .word word.reverse⟩ c =
        Token.ofWord word >>= fun t => step ⟨t :: tokens, .gap⟩ c := by
      unfold step
      dsimp only
      rw [if_pos (hcs c rfl), List.reverse_reverse]
      rfl
    simp only [read_cons, hstep, bind_assoc]

end Scan

end StackVM
