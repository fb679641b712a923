import Stencil.Proofs.Markup.Alignment

/-!
# Templates of related tokens

The readers of blocks and templates do the same with related tokens.
-/
namespace Stencil

open Stencil.Parser

variable {S : Relocation} {bound : Nat} {K : TokenKind → Prop}

theorem ImportName.parser_tracks : Tracks S bound K id ImportName.parser ImportName.parser := by
  refine .expect_bind rfl fun {t u} htoken hkind => ?_
  rw [S.literal htoken (by rw [hkind]; rfl)]
  refine (Follows.accept rfl).bind fun found => .ite (fun _ => ?_) fun _ => .pure rfl
  refine .expect_bind rfl fun {s v} hrenamed hkind => ?_
  rw [S.literal hrenamed (by rw [hkind]; rfl)]
  exact .pure rfl

namespace Block

/-- The block further down. -/
def down (lines : Nat) : Block → Block
  | .style b => .style (b.down lines)
  | .markup b => .markup (b.down lines)
  | .importModule name source p => .importModule name source (p.down lines)
  | .importNames names source p => .importNames names source (p.down lines)

theorem importSource_closes : Closes S bound id importSource importSource := by
  refine .expect_then rfl (Follows.stringValue.closes fun source => ?_).toFollows
  exact .expect_then rfl (.pure rfl)

theorem importParser_closes (position : Position) :
    Closes S bound (down S.lines) (importParser position)
      (importParser (position.down S.lines)) := by
  refine (Follows.accept rfl).closes fun found => .ite ?_ ?_
  · refine (Follows.commaList (S.more_of_kind fun k => decide (k = .identifier)) (fun _ _ => trivial)
      (ImportName.parser_tracks (K := anyKind))).closes fun names => ?_
    rw [List.map_id]
    exact .expect_then rfl (importSource_closes.toFollows.bind fun _ => .pure rfl)
  · refine .expect_bind rfl fun {t u} htoken hkind => ?_
    rw [S.literal htoken (by rw [hkind]; rfl)]
    exact importSource_closes.toFollows.bind fun _ => .pure rfl

theorem parser_closes : Closes S bound (down S.lines) Block.parser Block.parser := by
  have hstyle : ∀ p, Closes S bound (down S.lines) (do return .style (← StyleBlock.parser p))
      (do return .style (← StyleBlock.parser (p.down S.lines))) :=
    fun p => (StyleBlock.parser_closes p).bind fun _ => .pure rfl
  have hmarkup : ∀ p, Closes S bound (down S.lines) (do return .markup (← MarkupBlock.parser p))
      (do return .markup (← MarkupBlock.parser (p.down S.lines))) :=
    fun p => (MarkupBlock.parser_closes p).bind fun _ => .pure rfl
  have hadvance : ∀ {k} {f g : Unit → Parser Block}, k.isInner →
      Closes S bound (down S.lines) (f ()) (g ()) →
      Follows S True bound (· = k) (down S.lines) (advance >>= f) (advance >>= g) :=
    fun hk h => (Follows.advance (by rintro _ rfl; exact hk)).before fun _ => h
  refine Closes.here_kind_bind (fun _ => fail_ne_ok _ _ _) fun p p' k hp => ?_
  split
  · rw [hp TokenKind.noConfusion]
    exact hadvance rfl (hstyle p)
  · rw [hp TokenKind.noConfusion]
    exact hadvance rfl (hmarkup p)
  · rw [hp TokenKind.noConfusion]
    exact (hmarkup p).restrict fun _ _ => trivial
  · rw [hp TokenKind.noConfusion]
    exact hadvance rfl (importParser_closes p)
  · exact .expected _

end Block

namespace Template

def down (lines : Nat) (t : Template) : Template where
  blocks := t.blocks.map (Block.down lines)
  position := t.position.down lines

/-- The reader of templates, in readings that end together. -/
theorem parser_tracks (hwhole : S.whole) :
    Tracks S bound K (down S.lines) Template.parser Template.parser := by
  refine .here_bind fun p p' hp => ?_
  rw [hp (.inl hwhole)]
  exact (Follows.many (S.more_of_kind fun k => decide (k ≠ .eof)) (fun _ _ => trivial)
    (Block.parser_closes.tracks (K := anyKind)) Block.parser_settles.strict).bind fun _ => .pure rfl

/-- A source is read from the tokens of its scan. -/
theorem read_eq (file source : String) :
    Template.read file source = (Template.parser ⟨file, (Scan.of file source).ending, Format.split⟩
      (Scan.of file source).tokens).map Prod.fst := by
  change (Session.read ⟨⟨file, (Scan.of file source).ending, Format.split⟩,
    (Scan.of file source).tokens, none⟩).1 = _
  rw [Session.read]
  dsimp only
  split
  · next heq => rw [heq]; rfl
  · next heq => rw [heq]; rfl

end Template
end Stencil
