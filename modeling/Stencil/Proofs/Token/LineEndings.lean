import Stencil.Proofs.Text.LineEndings
import Stencil.Proofs.Token.Alignment
import Stencil.Proofs.Token.Moving

/-!
# Tokens with and without carriage returns

The scanner does the same step by step on a source and on the source with a carriage return in front
of every line feed: it looks at line breaks only to tell that they are some. The tokens are of the same
kinds and at the same lines and columns, a token without a line feed has the same literal, and the
offsets are those of the same places.
-/
namespace Stencil

open Text (Cluster)
open Text.Cluster (bytes text returned IsFed lead_returned returned_of_lead)
open List Lexeme

/-! ## Lexemes -/

namespace Lexeme

variable (ks : List Cluster)

theorem blankLinesFrom_returned (read : Nat) (comment : Bool) :
    blankLinesFrom read comment (ks.map returned) = blankLinesFrom read comment ks := by
  induction ks generalizing read comment with
  | nil => rfl
  | cons k ks ih =>
    rw [map_cons, blankLinesFrom, blankLinesFrom, lead_returned]
    split
    · rw [ih]
    · next hlead => rw [returned_of_lead hlead, ih, ih]

theorem gapFrom_returned (bracketed comment : Bool) :
    gapFrom bracketed comment (ks.map returned) = gapFrom bracketed comment ks := by
  induction ks generalizing comment with
  | nil => rfl
  | cons k ks ih => rw [map_cons, gapFrom, gapFrom, lead_returned, ih, ih]

theorem stringRest_returned (quote : Char) :
    stringRest quote (ks.map returned) = stringRest quote ks := by
  induction ks using stringRest.induct quote with
  | case1 => rfl
  | case2 k ks hk =>
    rw [map_cons]
    unfold stringRest
    rw [lead_returned, if_pos hk, if_pos hk]
  | case3 k hk hslash =>
    rw [map_cons]
    unfold stringRest
    rw [lead_returned, if_neg hk, if_neg hk, if_pos hslash, if_pos hslash]
    rfl
  | case4 k hk hslash j ks ih =>
    rw [map_cons, map_cons]
    unfold stringRest
    rw [lead_returned, if_neg hk, if_neg hk, if_pos hslash, if_pos hslash]
    exact congrArg (Option.map (· + 2)) ih
  | case5 k ks hk hslash ih =>
    rw [map_cons]
    unfold stringRest
    rw [lead_returned, if_neg hk, if_neg hk, if_neg hslash, if_neg hslash, ih]

theorem abreast_returned : Abreast ks (ks.map returned) := by
  induction ks with
  | nil => exact .nil
  | cons k ks ih =>
    by_cases hk : k.lead = '\n'
    · exact .line hk ((lead_returned k).trans hk) _ _
    · rw [map_cons, returned_of_lead hk]
      exact .cons hk ih

end Lexeme

/-! ## Places -/

namespace Cursor

/-- The same place after clusters `before` in the source with carriage returns. -/
def returned (before : List Cluster) (c : Cursor) : Cursor :=
  ⟨c.rest.map Cluster.returned, c.line, c.column, bytes (before.map Cluster.returned)⟩

theorem skip_returned (n : Nat) (before : List Cluster) (c : Cursor) :
    (c.returned before).skip n = (c.skip n).returned (before ++ c.rest.take n) := by
  induction n generalizing before c with
  | zero => rw [take_zero, append_nil, skip, skip]
  | succ n ih =>
    obtain ⟨rest, line, column, offset⟩ := c
    cases rest with
    | nil =>
      have hstep : (returned before ⟨[], line, column, offset⟩).step =
          returned before ⟨[], line, column, offset⟩ := rfl
      rw [skip, skip, hstep, ih, take_nil, take_nil]
      rfl
    | cons k ks =>
      have hstep : (returned before ⟨k :: ks, line, column, offset⟩).step =
          (step ⟨k :: ks, line, column, offset⟩).returned (before ++ [k]) := by
        simp only [returned, step, map_cons, lead_returned, map_append, map_nil,
          Text.Cluster.bytes_append, Text.Cluster.bytes_cons, Text.Cluster.bytes_nil, Nat.add_zero]
        split <;> rfl
      have hrest : (step ⟨k :: ks, line, column, offset⟩).rest = ks := by
        simp only [step]
        split <;> rfl
      rw [skip, skip, hstep, ih, hrest, take_succ_cons, append_assoc]
      rfl

end Cursor

/-- The same token in the source with carriage returns. The place of a piece of a name is told by
the clusters in front of it. -/
structure Token.Returns (source : List Cluster) (t u : Token) : Prop where
  kind : u.kind = t.kind
  line : u.line = t.line
  column : u.column = t.column
  literal : '\n' ∉ t.literal.toList → u.literal = t.literal
  place : isNamePiece t = true → ∃ before taken rest, source = before ++ (taken ++ rest) ∧
    t.offset = bytes before ∧ t.literal = text taken ∧ u.offset = bytes (before.map returned)

/-- The same scan of the source with carriage returns: alike tokens, and the same fault or none. -/
structure Scan.Returns (source : List Cluster) (scan scan' : Scan) : Prop where
  tokens : List.Forall₂ (Token.Returns source) scan.tokens scan'.tokens
  ending : scan.ending.token.Returns source scan'.ending.token
  stopped : (∃ t u fault, scan.ending = .fault t fault ∧ scan'.ending = .fault u fault) ∨
    ∃ t u, scan.ending = .eof t ∧ scan'.ending = .eof u

theorem Lexer.not_mem_text {ks : List Cluster} (hfed : ∀ k ∈ ks, k.IsFed)
    (hlead : ∀ k ∈ ks, k.lead ≠ '\n') : '\n' ∉ (text ks).toList := by
  rw [text, String.toList_ofList]
  intro hmem
  obtain ⟨k, hk, hfeed⟩ := mem_flatMap.mp hmem
  exact (hfed k hk).inside (hlead k hk) hfeed

/-! ## Scans -/

/-- The place of the same clusters in the source with carriage returns. -/
def Cursor.Returns (source : List Cluster) (c c' : Cursor) : Prop :=
  ∃ before, c' = c.returned before ∧ source = before ++ c.rest ∧ c.offset = bytes before

namespace Cursor.Returns

variable {source : List Cluster} {c c' : Cursor}

theorem skip (h : c.Returns source c') (n : Nat) : (c.skip n).Returns source (c'.skip n) := by
  obtain ⟨before, rfl, hsource, hoffset⟩ := h
  refine ⟨before ++ c.rest.take n, skip_returned n before c, ?_, ?_⟩
  · rw [rest_skip, append_assoc, take_append_drop]
    exact hsource
  · rw [offset_skip, hoffset, Text.Cluster.bytes_append]

theorem rest (h : c.Returns source c') : c'.rest = c.rest.map Cluster.returned := by
  obtain ⟨before, rfl, -, -⟩ := h
  rfl

/-- A token of layout or of brackets. -/
theorem token {kind : TokenKind} {literal literal' : String} (h : c.Returns source c')
    (hliteral : '\n' ∉ literal.toList → literal' = literal)
    (hkind : isNamePiece (c.token kind literal) = false) :
    (c.token kind literal).Returns source (c'.token kind literal') := by
  obtain ⟨before, rfl, -, -⟩ := h
  exact ⟨rfl, rfl, rfl, hliteral, fun h => absurd (hkind.symm.trans h) Bool.false_ne_true⟩

/-- A text without line breaks is the same. -/
theorem text_eq (h : c.Returns source c') (hfed : ∀ k ∈ source, k.IsFed) {n : Nat}
    (hfeed : '\n' ∉ (text (c.rest.take n)).toList) :
    text (c'.rest.take n) = text (c.rest.take n) := by
  rw [text, String.toList_ofList] at hfeed
  rw [h.rest, ← map_take, IsFed.map_returned (fun k hk => hfed k ?_) hfeed]
  obtain ⟨before, -, hsource, -⟩ := h
  rw [hsource]
  exact mem_append_right _ (mem_of_mem_take hk)

end Cursor.Returns

namespace Lexer

/-- The scanner at the same place in the source with carriage returns. -/
def returning (source : List Cluster) : Pairing where
  place _ c c' := c.Returns source c'
  front _ c c' := c.Returns source c'
  levels := id
  token t u := t.Returns source u
  fault f f' := f' = f
  ignores _ := False

variable {source : List Cluster} (hfed : ∀ k ∈ source, k.IsFed) {l : Lexer} {c' : Cursor}

include hfed

theorem lawful_returning : (returning source).Lawful where
  mono := strictMono_id
  zero := rfl
  known := .inr rfl
  kind := Token.Returns.kind
  column := by
    rintro _ c _ ⟨before, rfl, -⟩
    rfl
  here h hkind := h.token (fun _ => rfl) hkind
  pending := by
    rintro c _ width ⟨before, rfl, -⟩
    exact ⟨rfl, rfl, rfl, fun _ => rfl, fun hpiece => by cases hpiece⟩
  faults := by
    rintro _ c _ file cause ⟨before, rfl, -⟩
    exact .inr rfl
  place_of_front := id
  abreast h := h.rest ▸ abreast_returned _
  skip h _ _ _ := h.skip _
  text := by
    rintro _ c _ n kind ⟨before, rfl, hsource, hoffset⟩ -
    refine ⟨rfl, rfl, rfl, fun _ => rfl, fun _ => ⟨before, c.rest.take n, c.rest.drop n, ?_, hoffset,
      rfl, rfl⟩⟩
    rw [take_append_drop]
    exact hsource
  newline h _ _ := h.token (h.text_eq hfed) rfl
  string := by
    intro _ c c' k rest n h hrest _ hlength
    refine ⟨?_, h.skip _, h.token (h.text_eq hfed) rfl⟩
    rw [h.rest, hrest, map_cons, tail_cons, stringRest_returned, hlength]
  unterminated := by
    intro _ c c' k rest h hrest hnone
    have hall : text (c.rest.take c.rest.length) = text c.rest := congrArg text take_length
    have hall' : text (c'.rest.take c.rest.length) = text c'.rest := by
      rw [h.rest, ← length_map Cluster.returned, take_length]
    refine .inr ⟨?_, h.token (fun hfeed => ?_) rfl⟩
    · rw [h.rest, hrest, map_cons, tail_cons, stringRest_returned, hnone]
    · rw [← hall']
      rw [← hall] at hfeed ⊢
      exact h.text_eq hfed hfeed

omit hfed in
theorem ready_returning (hlaws : (returning source).Lawful) (h : l.cursor.Returns source c') :
    Twin.Ready ⟨returning source, hlaws⟩ l c' := by
  have hmeets : ∀ b {c c' : Cursor}, c.Returns source c' →
      Twin.Meets ⟨returning source, hlaws⟩ b c c' := by
    intro b c c' hc
    refine ⟨?_, hc.skip _⟩
    rw [hc.rest]
    exact gapFrom_returned _ _ _
  refine ⟨h, fun _ => hmeets _ h, fun _ _ => ?_, fun _ _ _ => h.skip _, fun hstart => ?_⟩
  · rw [h.rest]
    exact blankLinesFrom_returned _ _ _
  · have hpast : l.pastBlank.cursor.Returns source _ := h.skip _
    have habreast : Lexeme.Abreast l.pastBlank.cursor.rest _ := abreast_returned _
    have hspaces : l.pastBlank.cursor.skipSpaces.Returns source
        (c'.skip (blankLines l.cursor.rest)).skipSpaces := by
      rw [Cursor.skipSpaces, Cursor.skipSpaces, hpast.rest, habreast.takeWhile_eq]
      · exact hpast.skip _
      · intro k hk
        rw [hk]
        rfl
    rw [← hpast.rest] at habreast
    exact ⟨habreast.ne_nil hstart.rest, hpast, habreast.margin_eq, hspaces, hmeets _ hspaces⟩

/-- The scans go on in the same way. -/
theorem ends_returning {scan : Scan} (h : l.cursor.Returns source c') (hends : l.Ends scan) :
    ∃ scan', Ends { l with cursor := c' } scan' ∧ scan.Returns source scan' := by
  obtain ⟨scan', hends', htokens, hending⟩ :=
    Twin.ends (w := ⟨returning source, lawful_returning hfed⟩) (ready_returning _) h hends
      fun _ _ _ => id
  have htwin : Twin.twin ⟨returning source, lawful_returning hfed⟩ l c' = { l with cursor := c' } := by
    rw [Twin.twin]
    congr 1
    exact map_id _
  rw [htwin] at hends'
  rcases hending with ⟨t, t', ht, ht', htoken⟩ | ⟨t, t', f, f', ht, ht', htoken, rfl⟩
  · exact ⟨scan', hends', htokens, by rwa [ht, ht'], .inr ⟨t, t', ht, ht'⟩⟩
  · exact ⟨scan', hends', htokens, by rwa [ht, ht'], .inl ⟨t, t', _, ht, ht'⟩⟩

end Lexer
end Stencil
