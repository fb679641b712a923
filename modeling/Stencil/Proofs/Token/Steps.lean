import Stencil.Proofs.Token.Branches

/-!
# What one scan does

A scan passes over blanks, line breaks and comments and then takes the clusters of one token, or it
opens or closes a level of indentation, or it ends the source. Everything that holds along a whole
scan is read off these cases. Nothing is assumed of the source.
-/
namespace Stencil

open Text (Cluster)
open List

/-! ## Steps -/

namespace Lexeme

variable {quote : Char} {ks : List Cluster} {length : Nat}

/-- What comes behind the opening quote of a string, up to its closing quote. -/
inductive EndsString (quote : Char) : List Cluster → Prop where
  | mark {k : Cluster} (hk : k.lead = quote) : EndsString quote [k]
  | escape {k j : Cluster} {ks : List Cluster} (hk : k.lead ≠ quote) (hslash : k.lead = '\\')
      (hlater : EndsString quote ks) : EndsString quote (k :: j :: ks)
  | other {k : Cluster} {ks : List Cluster} (hk : k.lead ≠ quote) (hslash : k.lead ≠ '\\')
      (hlater : EndsString quote ks) : EndsString quote (k :: ks)

theorem EndsString.stringRest (h : EndsString quote ks) (more : List Cluster) :
    stringRest quote (ks ++ more) = some ks.length := by
  induction h with
  | mark hk =>
    rw [singleton_append]
    unfold Lexeme.stringRest
    rw [if_pos hk]
    rfl
  | escape hk hslash _ ih =>
    rw [cons_append, cons_append, Lexeme.stringRest, if_neg hk, if_pos hslash, ih]
    rfl
  | other hk hslash _ ih =>
    rw [cons_append]
    unfold Lexeme.stringRest
    rw [if_neg hk, if_neg hslash, ih]
    rfl

theorem stringRest_eq_some : stringRest quote ks = some length ↔
    ∃ front more, ks = front ++ more ∧ EndsString quote front ∧ length = front.length := by
  constructor
  · intro h
    induction ks using stringRest.induct quote generalizing length with
    | case1 => cases h
    | case2 k ks hk =>
      unfold stringRest at h
      rw [if_pos hk] at h
      cases h
      exact ⟨[k], ks, rfl, .mark hk, rfl⟩
    | case3 k hk hslash =>
      rw [stringRest, if_neg hk, if_pos hslash] at h
      cases h
    | case4 k hk hslash j ks ih =>
      rw [stringRest, if_neg hk, if_pos hslash] at h
      obtain ⟨_, hinner, rfl⟩ := Option.map_eq_some_iff.mp h
      obtain ⟨front, more, rfl, hfront, rfl⟩ := ih hinner
      exact ⟨k :: j :: front, more, rfl, .escape hk hslash hfront, rfl⟩
    | case5 k ks hk hslash ih =>
      unfold stringRest at h
      rw [if_neg hk, if_neg hslash] at h
      obtain ⟨_, hinner, rfl⟩ := Option.map_eq_some_iff.mp h
      obtain ⟨front, more, rfl, hfront, rfl⟩ := ih hinner
      exact ⟨k :: front, more, rfl, .other hk hslash hfront, rfl⟩
  · rintro ⟨front, more, rfl, hfront, rfl⟩
    exact hfront.stringRest more

theorem EndsString.of_stringRest (h : Lexeme.stringRest quote ks = some ks.length) :
    EndsString quote ks := by
  obtain ⟨front, more, rfl, hfront, hlength⟩ := stringRest_eq_some.mp h
  obtain rfl : more = [] := by simpa using hlength
  rwa [append_nil]

theorem stringRest_append {more : List Cluster} (h : stringRest quote ks = some length) :
    stringRest quote (ks ++ more) = some length := by
  obtain ⟨front, later, rfl, hfront, rfl⟩ := stringRest_eq_some.mp h
  rw [append_assoc]
  exact hfront.stringRest _

/-- A string ends where it is cut off. -/
theorem stringRest_take (h : stringRest quote ks = some length) :
    stringRest quote (ks.take length) = some length := by
  obtain ⟨front, more, rfl, hfront, rfl⟩ := stringRest_eq_some.mp h
  rw [take_left, ← append_nil front, hfront.stringRest, append_nil]

theorem stringRest_pos (h : stringRest quote ks = some length) :
    0 < length ∧ length ≤ ks.length := by
  obtain ⟨front, more, rfl, hfront, rfl⟩ := stringRest_eq_some.mp h
  rw [length_append]
  exact ⟨by cases hfront <;> exact Nat.succ_pos _, Nat.le_add_right _ _⟩

end Lexeme

namespace Lexer

/-- From one place of the source to a later one: over trivia, and then over the clusters of a
token. -/
structure Passes (l : Lexer) (skipped taken : List Cluster) (m : Lexer) : Prop where
  rest : l.cursor.rest = skipped ++ (taken ++ m.cursor.rest)
  offset : m.cursor.offset = l.cursor.offset + Cluster.bytes skipped + Cluster.bytes taken
  trivia : Lexeme.isTrivia false skipped = true
  fault : m.fault = l.fault

/-- How the literal of a token is cut from its clusters. A bracket is cut from the front of its
cluster, and any other literal is all of the text. -/
inductive Cut : TokenKind → List Cluster → String → Prop where
  | whole {kind : TokenKind} {ks : List Cluster} (hne : ks ≠ [])
      (hkind : kind ≠ .indent ∧ kind ≠ .dedent ∧ kind ≠ .eof ∧ kind ≠ .error)
      (hstring : kind = .string → 2 ≤ ks.length) : Cut kind ks (Cluster.text ks)
  | opening {k : Cluster} (b : Bracket) (hk : k.first = b.opening) :
      Cut (.opening b) [k] b.opening.toString
  | closing {k : Cluster} (b : Bracket) (hk : k.first = b.closing) :
      Cut (.closing b) [k] b.closing.toString

/-- What a scan does. A level is closed only by a line of a smaller margin, so there is another
level below it. A line that closes several levels gives their tokens in front of itself. -/
inductive Step (l : Lexer) : Token → Lexer → Prop where
  | content {skipped taken : List Cluster} {t : Token} {m : Lexer} (hpass : l.Passes skipped taken m)
      (hcut : Cut t.kind taken t.literal)
      (hoffset : t.offset = l.cursor.offset + Cluster.bytes skipped)
      (hindents : m.indents = l.indents) : Step l t m
  | indent {skipped : List Cluster} {m : Lexer} (width : Nat) (hpass : l.Passes skipped [] m)
      (hne : skipped ≠ []) (hwidth : l.indents.headD 0 < width)
      (hindents : m.indents = width :: l.indents) : Step l (m.token .indent "") m
  | dedent {skipped : List Cluster} {m : Lexer} (width : Nat) (hpass : l.Passes skipped [] m)
      (hwidth : width < l.indents.headD 0) (hindents : m.indents = l.indents.tail) :
      Step l (m.token .dedent "") m
  | pending {skipped : List Cluster} {t : Token} {m : Lexer} (hpass : l.Passes skipped [] m)
      (hmark : t.kind = .dedent ∧ t.literal = "")
      (hoffset : t.offset = m.cursor.offset + (Lexeme.margin m.cursor.rest).1)
      (hwidth : (Lexeme.margin m.cursor.rest).1 < l.indents.headD 0)
      (hindents : m.indents = l.indents.tail) (hline : m.cursor.column = 1 ∧ m.brackets = [])
      (hblank : Lexeme.blankLines m.cursor.rest = 0) : Step l t m
  | lastLine {skipped : List Cluster} {m : Lexer} (hpass : l.Passes skipped [] m)
      (hend : m.cursor.rest = [])
      (hlast : [TokenKind.newline, .indent, .dedent, .eof].contains l.last = false)
      (hindents : m.indents = l.indents) : Step l (m.token .newline "") m
  | lastLevel {skipped : List Cluster} {m : Lexer} {level : Nat} (hpass : l.Passes skipped [] m)
      (hend : m.cursor.rest = []) (hindents : l.indents = level :: m.indents)
      (hne : m.indents ≠ []) : Step l (m.token .dedent "") m
  | eof {skipped : List Cluster} {m : Lexer} (hpass : l.Passes skipped [] m)
      (hend : m.cursor.rest = []) (hindents : m.indents = l.indents)
      (hlength : l.indents.length ≤ 1) : Step l (m.token .eof "") m

/-- What is left of a scan at a fault. -/
inductive Stuck (l : Lexer) : Token → Lexer → Prop where
  | intro {skipped taken : List Cluster} {t : Token} {m : Lexer} (hpass : l.Passes skipped taken m)
      (hkind : t.kind = .error) (hliteral : t.literal = Cluster.text taken)
      (hoffset : t.offset = l.cursor.offset + Cluster.bytes skipped)
      (hindents : m.indents = l.indents ∨
        (0 < l.indents.headD 0 ∧ m.indents = l.indents.tail)) : Stuck l t m

variable {l m n : Lexer} {t : Token} {skipped passed taken rest : List Cluster} {kind : TokenKind}
  {length : Nat} {k : Cluster} {result : Scanned} {P : Nat → Prop}

namespace Passes

theorem refl (l : Lexer) : l.Passes [] [] l := ⟨rfl, rfl, rfl, rfl⟩

theorem trans (h : l.Passes skipped [] m) (h' : m.Passes passed taken n) :
    l.Passes (skipped ++ passed) taken n where
  rest := by rw [h.rest, h'.rest, nil_append, append_assoc]
  offset := by rw [h'.offset, h.offset, Cluster.bytes_append, Cluster.bytes_nil]; omega
  trivia := Lexeme.isTrivia_append h.trivia h'.trivia
  fault := h'.fault.trans h.fault

/-- A number of clusters in front are trivia. -/
theorem skip (n : Nat) (h : Lexeme.isTrivia false (l.cursor.rest.take n)) :
    l.Passes (l.cursor.rest.take n) [] { l with cursor := l.cursor.skip n } where
  rest := by rw [nil_append, Cursor.rest_skip, take_append_drop]
  offset := by rw [Cursor.offset_skip, Cluster.bytes_nil, Nat.add_zero]
  trivia := h
  fault := rfl

/-- A number of clusters in front are those of a token. -/
theorem take (n : Nat) (brackets : List Bracket) (mode : WordMode) :
    l.Passes [] (l.cursor.rest.take n)
      { l with cursor := l.cursor.skip n, brackets := brackets, mode := mode } where
  rest := by rw [nil_append, Cursor.rest_skip, take_append_drop]
  offset := by rw [Cursor.offset_skip, Cluster.bytes_nil, Nat.add_zero]
  trivia := rfl
  fault := rfl

/-- The levels do not matter. -/
theorem relevel (h : l.Passes skipped taken m) (indents : List Nat) :
    l.Passes skipped taken { m with indents := indents } :=
  ⟨h.rest, h.offset, h.trivia, h.fault⟩

end Passes

/-! ### A token on a line -/

/-- A token right at the cursor, for which at least one cluster is taken. -/
theorem step_take (mode : WordMode) (hlength : 0 < length) (hrest : l.cursor.rest ≠ [])
    (hkind : kind ≠ .indent ∧ kind ≠ .dedent ∧ kind ≠ .eof ∧ kind ≠ .error)
    (hstring : kind = .string → 2 ≤ (l.cursor.rest.take length).length) :
    l.Step ({ l with mode := mode }.take kind length).1
      ({ l with mode := mode }.take kind length).2 := by
  refine .content (.take length l.brackets mode) (.whole ?_ hkind hstring) rfl rfl
  rw [Ne, take_eq_nil_iff]
  rintro (hzero | hnil)
  · omega
  · exact hrest hnil

/-- What a scan comes to: a step or a fault. -/
def Follows (l : Lexer) : Scanned → Prop
  | .ok (t, m) => l.Step t m
  | .error ((t, _), m) => l.Stuck t m

theorem follows_fail (cause : Cause) (length : Nat) : l.Follows (l.fail cause length) :=
  .intro (.take length l.brackets l.mode) rfl rfl rfl (.inl rfl)

theorem operator_kind {c : Char} {next : Option Char}
    (h : Lexeme.operator c next = some (kind, length)) :
    0 < length ∧ (kind ≠ .indent ∧ kind ≠ .dedent ∧ kind ≠ .eof ∧ kind ≠ .error) ∧
      kind ≠ .string := by
  unfold Lexeme.operator at h
  dsimp only at h
  split at h <;> (try split at h) <;> cases h <;> simp

theorem run_pos {part : Char → Bool} (h : part k.lead) : 0 < Lexeme.run part (k :: rest) := by
  rw [Lexeme.run, takeWhile_cons_of_pos (by simpa using h)]
  exact Nat.succ_pos _

theorem ofWord_kind (word : String) :
    (TokenKind.ofWord word ≠ .indent ∧ TokenKind.ofWord word ≠ .dedent ∧
      TokenKind.ofWord word ≠ .eof ∧ TokenKind.ofWord word ≠ .error) ∧
      TokenKind.ofWord word ≠ .string := by
  unfold TokenKind.ofWord
  split <;> simp

/-- Trivia in front changes nothing but where a step starts. -/
theorem Follows.after (hpass : l.Passes skipped [] m) (hindents : m.indents = l.indents)
    (hlast : m.last = l.last) (h : m.Follows result) : l.Follows result := by
  have hshift : ∀ passed : List Cluster, m.cursor.offset + Cluster.bytes passed =
      l.cursor.offset + Cluster.bytes (skipped ++ passed) := by
    intro passed
    rw [hpass.offset, Cluster.bytes_append, Cluster.bytes_nil]
    omega
  cases result with
  | error failure =>
    obtain ⟨⟨t, fault⟩, n⟩ := failure
    cases h with
    | intro hpass' hkind hliteral hoffset hlevels =>
      rw [hindents] at hlevels
      exact .intro (hpass.trans hpass') hkind hliteral (hoffset.trans (hshift _)) hlevels
  | ok next =>
    obtain ⟨t, n⟩ := next
    cases h with
    | content hpass' hcut hoffset hsame =>
      exact .content (hpass.trans hpass') hcut (hoffset.trans (hshift _)) (hsame.trans hindents)
    | indent width hpass' hne hwidth hpush =>
      rw [hindents] at hwidth hpush
      exact .indent width (hpass.trans hpass') (by simp [hne]) hwidth hpush
    | dedent width hpass' hwidth hpop =>
      rw [hindents] at hwidth hpop
      exact .dedent width (hpass.trans hpass') hwidth hpop
    | pending hpass' hmark hoffset hwidth hpop hline hblank =>
      rw [hindents] at hwidth hpop
      exact .pending (hpass.trans hpass') hmark hoffset hwidth hpop hline hblank
    | lastLine hpass' hend hlayout hsame =>
      rw [hlast] at hlayout
      exact .lastLine (hpass.trans hpass') hend hlayout (hsame.trans hindents)
    | lastLevel hpass' hend hpop hne =>
      rw [hindents] at hpop
      exact .lastLevel (hpass.trans hpass') hend hpop hne
    | eof hpass' hend hsame hlength =>
      rw [hindents] at hlength hsame
      exact .eof (hpass.trans hpass') hend hsame hlength

/-- A token at a cluster. -/
theorem Takes.follows (h : l.Takes k rest result) (hrest : l.cursor.rest = k :: rest)
    (hk : k.lead ≠ '\n') : l.Follows result := by
  have hfirst := Cluster.lead_eq_first hk
  have hne : l.cursor.rest ≠ [] := by simp [hrest]
  have htaken : l.cursor.rest.take 1 = [k] := by rw [hrest]; rfl
  cases h with
  | string hquote hlength =>
    obtain ⟨hpos, hle⟩ := Lexeme.stringRest_pos hlength
    refine step_take l.mode (by omega) hne (by simp) fun _ => ?_
    rw [hrest, length_take, length_cons]
    omega
  | unterminated | unmatched | unexpected => exact follows_fail _ _
  | @opening b hb =>
    have hopening : b.opening = k.lead := by simpa using find?_some hb
    refine .content (.take 1 (b :: l.brackets) l.mode) ?_ rfl rfl
    rw [htaken]
    exact .opening b (by rw [hopening, hfirst])
  | @closing b outer hb hbrackets =>
    have hclosing : b.closing = k.lead := by simpa using find?_some hb
    refine .content (.take 1 outer l.mode) ?_ rfl rfl
    rw [htaken]
    exact .closing b (by rw [hclosing, hfirst])
  | styleWord hstart =>
    refine step_take l.mode ?_ hne (by simp) (by simp)
    rw [hrest]
    exact run_pos (by rw [Lexeme.isStyleWordPart, hstart]; rfl)
  | word hletter =>
    obtain ⟨hkind, hstring⟩ := ofWord_kind (Cluster.text (l.cursor.rest.take
      (Lexeme.run Lexeme.isNamePart l.cursor.rest)))
    refine step_take _ ?_ hne hkind fun h => absurd h hstring
    change 0 < Lexeme.run Lexeme.isNamePart l.cursor.rest
    rw [hrest]
    exact run_pos (by rw [Lexeme.isNamePart, hletter]; rfl)
  | number hdigit =>
    refine step_take l.mode ?_ hne (by simp) (by simp)
    rw [hrest, Lexeme.number_cons hdigit]
    exact Nat.succ_pos _
  | sign _ hsign =>
    obtain ⟨hpos, hkind, hstring⟩ := operator_kind hsign
    exact step_take l.mode hpos hne hkind fun h => absurd h hstring

/-- A token after a gap. -/
theorem Gives.follows (h : l.Gives result) : l.Follows result := by
  cases h with
  | lastLine hrest hbrackets hlast => exact .lastLine (.refl l) hrest hlast rfl
  | @lastLevel level outer levels hrest hlast hindents =>
    exact .lastLevel (m := { l with indents := outer :: levels }) ((Passes.refl l).relevel _) hrest
      hindents (by simp)
  | eof hrest hlast hindents => exact .eof (.refl l) hrest rfl hindents
  | newline hrest hk => exact step_take l.mode (by simp) (by simp [hrest]) (by simp) (by simp)
  | cluster hrest hk htakes => exact htakes.follows hrest hk

/-! ### The start of a line -/

theorem passes_gap (l : Lexer) : ∃ skipped, l.Passes skipped [] l.pastGap :=
  ⟨_, .skip _ (Lexeme.isTrivia_gapFrom _ _ _)⟩

theorem passes_margin (l : Lexer) :
    l.Passes (l.cursor.rest.takeWhile (·.lead = ' ')) [] l.pastMargin := by
  have hspaces : l.cursor.rest.take (l.cursor.rest.takeWhile (·.lead = ' ')).length =
      l.cursor.rest.takeWhile (·.lead = ' ') :=
    (prefix_iff_eq_take.mp ( takeWhile_prefix _)).symm
  have hpass := @Passes.skip l (l.cursor.rest.takeWhile (·.lead = ' ')).length
    (by rw [hspaces]; exact Lexeme.isTrivia_spaces _)
  rwa [hspaces] at hpass

theorem passes_blank (l : Lexer) : ∃ skipped, l.Passes skipped [] l.pastBlank := by
  refine ⟨_, .skip _ ?_⟩
  rcases Lexeme.blankLinesFrom_cases 0 false l.cursor.rest with hzero | ⟨lines, rest, hks, hcount, h⟩
  · rw [Lexeme.blankLines, hzero]
    rfl
  · rw [Lexeme.blankLines, hcount, Nat.zero_add, hks, take_left]
    exact h.1

theorem Comes.passes (h : l.Comes m) : ∃ skipped, l.Passes skipped [] m := by
  cases h with
  | inside => exact passes_gap l
  | ending => exact passes_blank l
  | line =>
    obtain ⟨blank, hblank⟩ := passes_blank l
    obtain ⟨gap, hgap⟩ := passes_gap l.pastBlank.pastMargin
    exact ⟨_, (hblank.trans (passes_margin _)).trans hgap⟩

theorem Lays.follows (h : l.Lays result) (hcolumn : l.cursor.column = 1)
    (hbrackets : l.brackets = []) (hblank : Lexeme.blankLines l.cursor.rest = 0) :
    l.Follows result := by
  have hpass := passes_margin l
  cases h with
  | tab => exact .after hpass rfl rfl (follows_fail _ _)
  | indent htab hwidth =>
    refine .indent _ (hpass.relevel _) ?_ hwidth rfl
    intro hnil
    have hle := Lexeme.margin_le l.cursor.rest
    rw [hnil, Cluster.bytes_nil] at hle
    omega
  | uneven htab hwidth =>
    refine .intro (hpass.trans ((Passes.take 0 l.brackets l.mode).relevel l.indents.tail)) rfl rfl ?_
      (.inr ⟨by omega, rfl⟩)
    rw [append_nil]
    exact hpass.offset
  | dedent htab hwidth => exact .dedent _ (hpass.relevel _) hwidth rfl
  | pending htab hwidth =>
    exact .pending ((Passes.refl l).relevel _) ⟨rfl, rfl⟩ rfl hwidth rfl ⟨hcolumn, hbrackets⟩ hblank

/-- Every scan is one of these steps or is stuck. -/
theorem follows_scan (l : Lexer) : l.Follows l.scan := by
  cases l.scan_branches with
  | gives hcomes hgives =>
    obtain ⟨n, rfl⟩ := hcomes.exists_skip
    obtain ⟨skipped, hpass⟩ := hcomes.passes
    exact .after hpass rfl rfl hgives.follows
  | lays hstart hlays =>
    obtain ⟨skipped, hpass⟩ := l.passes_blank
    exact .after hpass rfl rfl
      (hlays.follows hstart.column_pastBlank hstart.brackets l.blankLines_pastBlank)

/-! ## Where a token begins -/

/-- The token of a scan begins at a place. -/
def Begins (P : Nat → Prop) : Scanned → Prop
  | .ok (t, _) => P t.offset
  | .error ((t, _), _) => P t.offset

theorem Takes.begins (h : l.Takes k rest result) (hl : P l.cursor.offset) : Begins P result := by
  cases h <;> exact hl

theorem Gives.begins (h : l.Gives result) (hl : P l.cursor.offset) : Begins P result := by
  cases h with
  | cluster _ _ htakes => exact htakes.begins hl
  | _ => exact hl

theorem Lays.begins (h : l.Lays result) (hl : P l.pastMargin.cursor.offset)
    (hmargin : P (l.cursor.offset + (Lexeme.margin l.cursor.rest).1)) : Begins P result := by
  cases h with
  | pending => exact hmargin
  | _ => exact hl

theorem margin_le_pastMargin (l : Lexer) :
    l.cursor.offset + (Lexeme.margin l.cursor.rest).1 ≤ l.pastMargin.cursor.offset := by
  have := Lexeme.margin_le l.cursor.rest
  rw [pastMargin, Cursor.skipSpaces, Cursor.offset_skip,
    ← prefix_iff_eq_take.mp ( takeWhile_prefix _)]
  omega

end Lexer

end Stencil
