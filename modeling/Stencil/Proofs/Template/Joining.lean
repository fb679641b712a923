import Stencil.Proofs.Template.Alignment
import Stencil.Proofs.Token.Seam

/-!
# One template after another

A template that ends with a line break is read in front of another as it is on its own, and the blocks
of the other follow further down. There is one exception. After a style block the words of the next line
are words of styles unless a word in the first column starts a new block. So if the first block of the
other template does not stand in the first column, the first template must not end with a style block.
-/
namespace Stencil

open Stencil.Parser List

variable {S : Relocation} {lines bytes : Nat}

/-! ## Blocks at another place -/

/-- The same token at another place. Where a level ends is never looked at. -/
structure Token.MovesTo (lines bytes : Nat) (t t' : Token) : Prop where
  kind : t'.kind = t.kind
  place : t.kind ≠ .dedent → t' = t.moved lines bytes

theorem Token.MovesTo.moved (t : Token) :
    t.MovesTo lines bytes (t.moved lines bytes) := ⟨rfl, fun _ => rfl⟩

theorem Token.MovesTo.joined {t u t' u' : Token} (h : t.MovesTo lines bytes u)
    (h' : t'.MovesTo lines bytes u') (hpiece : isNamePiece t)
    (hpiece' : isNamePiece t') : u'.offset = u.stop ↔ t'.offset = t.stop := by
  have hne : ∀ {t : Token}, isNamePiece t → t.kind ≠ .dedent := by
    intro t hpiece hkind
    have hspelled := isSpelled_of_isNamePiece hpiece
    rw [hkind] at hspelled
    cases hspelled
  rw [h.place (hne hpiece), h'.place (hne hpiece'), Token.stop, Token.stop, Token.moved, Token.moved]
  dsimp only
  omega

namespace Block

variable {ts rest : List Token}

/-- A block starts with a heading. -/
theorem isHeading_of_read {reading : Reading} {t : Token} {b : Block}
    (h : Block.parser reading (t :: ts) = .ok (b, rest)) : t.kind.isHeading := by
  obtain ⟨position, _, hposition, h⟩ := bind_eq_ok.mp h
  cases hposition
  obtain ⟨k, middle, hlook, h⟩ := bind_eq_ok.mp h
  have hkind : t.kind = k := by
    cases hlook
    rfl
  rw [hkind]
  split at h
  case h_1 | h_2 | h_3 | h_4 => rfl
  case h_5 => exact absurd h (fail_ne_ok _ _ _ _ _)

/-- The blocks of the first tokens are read at the new place, and then those of the tokens that
follow. -/
theorem many_append {ts' : List Token} {blocks later : List Block} (rounds : Nat)
    (hloose : ¬S.whole) (hlength : ts.length < rounds) (htokens : S.Tokens ts ts')
    (hts : ∀ t ∈ ts, t.kind ≠ .eof)
    (hok : manyWhile (·.kind ≠ .eof) Block.parser rounds S.left ts = .ok (blocks, rest))
    (hmore : ∀ rounds, S.more.length < rounds →
      manyWhile (·.kind ≠ .eof) Block.parser rounds S.right S.more = .ok (later, []))
    (rounds' : Nat) (hlength' : (ts' ++ S.more).length < rounds') :
    manyWhile (·.kind ≠ .eof) Block.parser rounds' S.right (ts' ++ S.more) =
      .ok (blocks.map (down S.lines) ++ later, []) := by
  induction rounds generalizing ts ts' blocks rounds' with
  | zero => exact absurd hlength (Nat.not_lt_zero _)
  | succ rounds ih =>
    cases htokens with
    | nil =>
      rw [manyWhile_of_not (by rw [headD_nil, S.eof hloose]; rfl)] at hok
      cases hok
      exact hmore rounds' hlength'
    | @cons t t' ts ts' htoken hlater =>
      have ht := hts t mem_cons_self
      obtain ⟨b, middle, bs, hb, hbs, rfl⟩ := (manyWhile_eq_ok (decide_eq_true ht)).mp hok
      obtain ⟨taken, htaken, hsettled⟩ := parser_settles.taken (.inl (S.eof hloose)) hb
      have hpos := length_pos_iff.mpr hsettled.ne_nil
      have hlengths := congrArg length htaken
      rw [length_append] at hlengths
      have houtcome := parser_closes.run (Nat.lt_succ_self _) trivial
        (.cons htoken hlater)
      obtain ⟨middle', hb', hmiddle'⟩ := houtcome.ok hb (.inl trivial)
      have hsame := List.Forall₂.length_eq hmiddle'
      have hsame' := hlater.length_eq
      cases rounds' with
      | zero => exact absurd hlength' (Nat.not_lt_zero _)
      | succ rounds' =>
        have hfirst : decide (t'.kind ≠ .eof) = true := decide_eq_true (S.kind htoken ▸ ht)
        refine (manyWhile_eq_ok hfirst).mpr ⟨_, _, _, hb', ?_, rfl⟩
        simp only [length_cons, length_append] at hlength hlengths hlength' ⊢
        refine ih (by omega) hmiddle' (fun u hu => hts u ?_) hbs rounds' ?_
        · rw [htaken]
          exact mem_append_right _ hu
        · rw [length_append]
          omega

end Block

/-! ## Two templates -/

namespace Template

variable {file u v : String} {blocks : List Block} {ts ts' : List Token} {e : Token}
  {lines bytes : Nat}

theorem Scanned.isHeading (h : Scanned file u blocks ts e) : ∀ t ∈ ts.head?, t.kind.isHeading := by
  intro t ht
  cases ts with
  | nil => cases ht
  | cons first ts =>
    cases ht
    have hfirst : decide (t.kind ≠ .eof) = true := decide_eq_true (h.tokens t mem_cons_self)
    have hblocks := h.blocks
    rw [many, bounded_eq, manyWhile_eq_ok hfirst] at hblocks
    obtain ⟨b, middle, _, hb, -⟩ := hblocks
    exact Block.isHeading_of_read hb

theorem forall₂_movesTo_self (ts : List Token) : List.Forall₂ (Token.MovesTo 0 0) ts ts :=
  forall₂_same.mpr fun t _ => .moved t

theorem forall₂_movesTo_map (lines bytes : Nat) (ts : List Token) :
    List.Forall₂ (Token.MovesTo lines bytes) ts (ts.map (Token.moved lines bytes)) :=
  forall₂_map_right_iff.mpr (forall₂_same.mpr fun t _ => .moved t)

/-- The ends of as many levels. -/
theorem forall₂_movesTo_dedents (hts : ∀ t ∈ ts, t.kind = .dedent)
    (hts' : ∀ t ∈ ts', t.kind = .dedent) (hlength : ts.length = ts'.length) :
    List.Forall₂ (Token.MovesTo lines bytes) ts ts' := by
  refine forall₂_iff_get.mpr ⟨hlength, fun i h h' => ?_⟩
  have hkind := hts _ (get_mem ts ⟨i, h⟩)
  exact ⟨(hts' _ (get_mem ts' ⟨i, h'⟩)).trans hkind.symm, fun hne => absurd hkind hne⟩

/-- Where a source that was read stands in another. -/
def Scanned.relocation (h : Scanned file u blocks ts e) {e' : Token} (lines bytes : Nat)
    {more : List Token} (hmore : ∀ t ∈ more.head?, t.kind.isHeading = true) (he' : e'.kind = .eof) :
    Relocation where
  left := ⟨file, .eof e, Format.split⟩
  right := ⟨file, .eof e', Format.split⟩
  lines := lines
  more := more
  whole := False
  counted := False
  token := Token.MovesTo lines bytes
  fault _ _ := False
  kind := Token.MovesTo.kind
  literal ht hspelled := by
    rw [ht.place fun hkind => by rw [hkind] at hspelled; cases hspelled]
    rfl
  position ht hkind := by
    rw [ht.place (hkind.resolve_left id)]
    rfl
  joined := Token.MovesTo.joined
  split _ _ _ _ := rfl
  ending := False.elim
  expected := False.elim
  refused := False.elim
  stopped := False.elim
  ended := .inl h.ending
  partner _ := ⟨_, .moved e⟩
  eof _ := h.ending
  follow _ := by
    cases more with
    | nil =>
      change e'.kind ≠ _ ∧ e'.kind ≠ _
      rw [he']
      exact ⟨TokenKind.noConfusion, TokenKind.noConfusion⟩
    | cons t more =>
      have ht := hmore t rfl
      constructor
      · intro hkind
        rw [show t.kind = .indent from hkind] at ht
        cases ht
      · intro hkind
        rw [show t.kind = .styleWord from hkind] at ht
        cases ht
  counts := False.elim

/-- The blocks of a source that was read, further down in another source, and the blocks after
them. -/
theorem Scanned.many_append (h : Scanned file u blocks ts e) {e' : Token} {more : List Token}
    {later : List Block} (hmore : ∀ t ∈ more.head?, t.kind.isHeading) (he' : e'.kind = .eof)
    (haligned : List.Forall₂ (Token.MovesTo lines bytes) ts ts')
    (hlater : ∀ rounds, more.length < rounds → manyWhile (·.kind ≠ .eof) Block.parser rounds
      ⟨file, .eof e', Format.split⟩ more = .ok (later, [])) (rounds : Nat)
    (hlength : (ts' ++ more).length < rounds) :
    manyWhile (·.kind ≠ .eof) Block.parser rounds ⟨file, .eof e', Format.split⟩ (ts' ++ more) =
      .ok (blocks.map (Block.down lines) ++ later, []) :=
  Block.many_append (S := h.relocation lines bytes hmore he') _ id (Nat.lt_succ_self _) haligned
    h.tokens h.blocks hlater rounds hlength

theorem read_of_many (hscan : Scan.of file u = ⟨ts, .eof e⟩)
    (h : many (·.kind ≠ .eof) Block.parser ⟨file, .eof e, Format.split⟩ ts = .ok (blocks, [])) :
    ∃ t, Template.read file u = .ok t ∧ t.blocks = blocks := by
  have hok : Template.parser ⟨file, .eof e, Format.split⟩ ts =
      .ok (⟨blocks, (ts.headD e).position file⟩, []) :=
    bind_eq_ok.mpr ⟨_, ts, rfl, bind_eq_ok.mpr ⟨blocks, [], h, rfl⟩⟩
  refine ⟨⟨blocks, (ts.headD e).position file⟩, ?_, rfl⟩
  rw [Template.read, Session.read]
  simp only [Session.start, hscan, hok]

/-- The blocks of a source that was read, further down at the end of another source. -/
theorem Scanned.many_moved (h : Scanned file u blocks ts e) (lines bytes rounds : Nat)
    (hlength : (ts.map (Token.moved lines bytes)).length < rounds) :
    manyWhile (·.kind ≠ .eof) Block.parser rounds
        ⟨file, .eof (e.moved lines bytes), Format.split⟩ (ts.map (Token.moved lines bytes)) =
      .ok (blocks.map (Block.down lines), []) := by
  have hending : (e.moved lines bytes).kind = .eof := h.ending
  have hend : ∀ rounds, manyWhile (·.kind ≠ .eof) Block.parser rounds
      ⟨file, .eof (e.moved lines bytes), Format.split⟩ [] = .ok ([], []) := fun rounds =>
    manyWhile_of_not (decide_eq_false fun hne => hne h.ending) rounds
  have hall := h.many_append (fun _ ht => absurd ht (Option.not_mem_none _)) hending
    (forall₂_movesTo_map lines bytes ts) (fun rounds _ => hend rounds) rounds
    (by rwa [append_nil])
  rwa [append_nil, append_nil] at hall

/-- Blocks that were read stay what they are where nothing stands above them. -/
theorem Scanned.down_zero (h : Scanned file u blocks ts e) : blocks.map (Block.down 0) = blocks := by
  have hsame := h.many_moved 0 0 (ts.length + 1) (by rw [length_map]; omega)
  have hts : ts.map (Token.moved 0 0) = ts := map_id ts
  rw [hts] at hsame
  exact congrArg Prod.fst (Except.ok.inj (hsame.symm.trans h.blocks))

/-- A source in front of another gives its blocks and then those of the other, further down. If it
ends with a style block, the first block of the other must stand in the first column. -/
theorem read_append {file u v : String} {tu tv : Template}
    (hu : u = "" ∨ u.toList.getLast? = some '\n') (hreadu : Template.read file u = .ok tu)
    (hreadv : Template.read file v = .ok tv)
    (hmode : (Scan.of file u).tokens.foldl WordMode.after .plain = .plain ∨
      ∀ t ∈ (Scan.of file v).tokens.head?, t.column = 1) :
    ∃ t, Template.read file (u ++ v) = .ok t ∧
      t.blocks = tu.blocks ++ tv.blocks.map (Block.down (u.toList.count '\n')) := by
  obtain ⟨us, eu, hus⟩ := scanned_of_read hreadu
  obtain ⟨vs, ev, hvs⟩ := scanned_of_read hreadv
  rw [hus.scan, hvs.scan] at hmode
  obtain ⟨front, closing, levels, rfl, hclosing, hlevels, hlength, hscan⟩ :=
    Scan.of_append hu hus.scan hvs.scan hus.settled hvs.isHeading hmode
  have hheading : ∀ t ∈ (vs.map (Token.moved (u.toList.count '\n') u.utf8ByteSize)).head?,
      t.kind.isHeading = true := by
    intro t ht
    rw [List.head?_map] at ht
    obtain ⟨first, hfirst, rfl⟩ := Option.map_eq_some_iff.mp ht
    exact hvs.isHeading first hfirst
  have hending : (ev.moved (u.toList.count '\n') u.utf8ByteSize).kind = .eof := hvs.ending
  have hlater := hvs.many_moved (u.toList.count '\n') u.utf8ByteSize
  have hfront : List.Forall₂ (Token.MovesTo 0 0) (front ++ closing) (front ++ levels) :=
    List.rel_append (forall₂_movesTo_self front) (forall₂_movesTo_dedents hclosing hlevels hlength)
  have hall := hus.many_append hheading hending hfront hlater
  rw [hus.down_zero] at hall
  rw [← List.append_assoc] at hscan
  exact read_of_many hscan (hall _ (Nat.lt_succ_self _))

end Template

def joinedStyles : String := "import f from 'x'\ncss(c='red'):\n  a, .b:hover\n    color: c\n"

def joinedMarkup : String := "\n# A view.\nview(x):\n  if x:\n    p.b \"\x7bx\x7d\"\n"

theorem joined_templates_read : ∃ tu tv t,
    Template.read "page" joinedStyles = .ok tu ∧ Template.read "page" joinedMarkup = .ok tv ∧
    Template.read "page" (joinedStyles ++ joinedMarkup) = .ok t ∧
    tu.blocks.length = 2 ∧ tv.blocks.length = 1 ∧
    t.blocks = tu.blocks ++ tv.blocks.map (Block.down (joinedStyles.toList.count '\n')) := by
  have hcheck : ((Template.read "page" joinedStyles).toOption.any (·.blocks.length = 2)) = true := by
    decide +kernel
  have hcheck' : ((Template.read "page" joinedMarkup).toOption.any (·.blocks.length = 1)) = true := by
    decide +kernel
  obtain ⟨tu, hreadu, hlengthu⟩ := exists_of_toOption hcheck
  obtain ⟨tv, hreadv, hlengthv⟩ := exists_of_toOption hcheck'
  obtain ⟨t, hread, hblocks⟩ :=
    Template.read_append (.inr (by decide +kernel)) hreadu hreadv (.inr (by decide +kernel))
  exact ⟨tu, tv, t, hreadu, hreadv, hread, of_decide_eq_true hlengthu, of_decide_eq_true hlengthv,
    hblocks⟩

/-- A carriage return in front of its first word moves a block out of the first column. After a style
block its name is then a word of styles, and the two sources are not read together. -/
theorem style_words_reach_next_source :
    (∃ tu, Template.read "page" "css:\n  a\n    b: c\n" = .ok tu) ∧
    (∃ tv, Template.read "page" "\rfoo:\n  div\n" = .ok tv) ∧
    ∀ t, Template.read "page" ("css:\n  a\n    b: c\n" ++ "\rfoo:\n  div\n") ≠ .ok t := by
  have hcheck : ((Template.read "page" "css:\n  a\n    b: c\n").toOption.any fun _ => true) = true := by
    decide +kernel
  have hcheck' : ((Template.read "page" "\rfoo:\n  div\n").toOption.any fun _ => true) = true := by
    decide +kernel
  have hfault : (Template.read "page" ("css:\n  a\n    b: c\n" ++ "\rfoo:\n  div\n")).toOption.isNone =
      true := by
    decide +kernel
  obtain ⟨tu, hreadu, -⟩ := exists_of_toOption hcheck
  obtain ⟨tv, hreadv, -⟩ := exists_of_toOption hcheck'
  refine ⟨⟨tu, hreadu⟩, ⟨tv, hreadv⟩, fun t ht => ?_⟩
  rw [ht] at hfault
  cases hfault

end Stencil
