import Stencil.Proofs.Style.Alignment

/-!
# Markup blocks at another place

The readers of statements and of markup blocks do the same at another place. The pieces of a name with
dashes follow each other in the bytes of the source, and they do so further down as well.
-/
namespace Stencil

open Stencil.Parser

variable {S : Relocation} {bound : Nat} {K : TokenKind → Prop}

/-! ## Names, classes and attributes -/

/-- The next piece of a name follows on the one side if it follows on the other. -/
theorem namePieces_tracks {offset offset' : Nat}
    (h : ∀ {t u}, S.token t u → isNamePiece t → (u.offset = offset' ↔ t.offset = offset)) :
    Tracks S bound anyKind id (bounded fun rounds => namePieces rounds offset)
      (bounded fun rounds => namePieces rounds offset') := by
  refine Follows.loop (fun offset offset' => ∀ {t u}, S.token t u → isNamePiece t →
    (u.offset = offset' ↔ t.offset = offset)) (fun _ _ => rfl) (fun _ _ => rfl) ?_ h
  intro less rounds before later hless ih offset offset' h
  refine .current_bind fun {t u} htoken => ?_
  have hsame : (decide (u.offset = offset') && isNamePiece u) =
      (decide (t.offset = offset) && isNamePiece t) := by
    rw [S.isNamePiece htoken]
    cases hpiece : isNamePiece t with
    | false => rw [Bool.and_false, Bool.and_false]
    | true => rw [decide_eq_decide.mpr (h htoken hpiece)]
  rw [hsame]
  refine .ite (fun hnext => ?_) fun _ => .pure rfl
  have hpiece := (Bool.and_eq_true_iff.mp hnext).2
  have hspelled := isSpelled_of_isNamePiece hpiece
  rw [S.literal htoken hspelled]
  refine .advance_bind (isInner_front (isInner_of_isSpelled hspelled)) ?_
  exact (ih fun hlater hpiece' => S.joined htoken hlater hpiece hpiece').bind fun _ => .pure rfl

theorem dashName_tracks : Tracks S bound K id dashName dashName := by
  refine .current_bind fun {t u} htoken => ?_
  rw [S.isWord htoken]
  refine .ite (fun hword => ?_) fun _ => .expected _
  have hpiece : isNamePiece t := by rw [isNamePiece, hword, Bool.or_true]
  have hspelled := Token.isSpelled_of_isWord hword
  rw [S.literal htoken hspelled]
  refine (Follows.advance_spelled hspelled).bind fun _ => ?_
  exact (namePieces_tracks fun hlater hpiece' => S.joined htoken hlater hpiece hpiece').bind
    fun _ => .pure rfl

namespace ClassClause

def down (lines : Nat) (c : ClassClause) : ClassClause :=
  { c with condition := c.condition.map (Expr.down lines) }

theorem parser_tracks :
    Tracks S bound (· = .dot) (down S.lines) ClassClause.parser ClassClause.parser := by
  refine (Follows.advance (by rintro _ rfl; rfl)).bind fun _ => dashName_tracks.bind fun name => ?_
  refine (Follows.accept rfl).bind fun found => .ite (fun _ => ?_) fun _ => .pure rfl
  refine .expect_then rfl ?_
  refine Expr.parser_tracks.bind fun condition => ?_
  exact .expect_then rfl (.pure rfl)

theorem parser_strict : ClassClause.parser.Strict (· = .dot) :=
  (advance_strict (by rintro _ rfl; rfl)).bind

end ClassClause

theorem attributesParser_tracks :
    Tracks S bound K (List.map (Expr.downItem S.lines)) attributesParser attributesParser := by
  have hattribute : Tracks S bound anyKind (Expr.downItem S.lines) attributeParser attributeParser := by
    exact dashName_tracks.bind fun _ => .expect_then rfl (Expr.parser_tracks.bind fun _ => .pure rfl)
  refine (Follows.accept rfl).bind fun found => .ite (fun _ => ?_) fun _ => .pure rfl
  refine (Follows.commaList (fun htoken => S.isWord htoken) (fun _ _ => trivial) hattribute).bind
    fun attributes => ?_
  exact .expect_then rfl (.pure rfl)

/-! ## Links -/

def LinkTarget.down (lines : Nat) (t : LinkTarget) : LinkTarget where
  target := t.target.down lines
  value := t.value.map (Expr.down lines)

def LinkEntry.down (lines : Nat) (e : LinkEntry) : LinkEntry :=
  { e with filter := e.filter.map (Expr.down lines) }

namespace Link

def down (lines : Nat) : Link → Link
  | .single event filter target =>
    .single event (filter.map (Expr.down lines)) (target.down lines)
  | .multi entries target => .multi (entries.map (LinkEntry.down lines)) (target.down lines)

theorem filter_tracks :
    Tracks S bound K (Option.map (Expr.down S.lines)) Link.filter Link.filter := by
  refine (Follows.accept rfl).bind fun found => .ite (fun _ => ?_) fun _ => .pure rfl
  refine Expr.parser_tracks.bind fun x => ?_
  exact .expect_then rfl (.pure rfl)

theorem target_tracks : Tracks S bound K (LinkTarget.down S.lines) Link.target Link.target := by
  refine Expr.parser_tracks.bind fun first => (Follows.accept rfl).bind fun found => ?_
  exact .ite (fun _ => Expr.parser_tracks.bind fun _ => .pure rfl) fun _ => .pure rfl

theorem entry_tracks : Tracks S bound K (LinkEntry.down S.lines) Link.entry Link.entry := by
  refine .expect_bind rfl fun {t u} htoken hkind => ?_
  rw [S.literal htoken (by rw [hkind]; rfl)]
  refine filter_tracks.bind fun filter => (Follows.accept rfl).bind fun found => ?_
  refine .ite (fun _ => .expect_bind rfl fun {s v} hrenamed hkind => ?_) fun _ => .pure rfl
  rw [S.literal hrenamed (by rw [hkind]; rfl)]
  exact .pure rfl

theorem parser_tracks : Tracks S bound K (down S.lines) Link.parser Link.parser := by
  refine Follows.current_bind fun {t u} htoken => ?_
  rw [S.kind htoken]
  split
  · next heq =>
    have hspelled : t.kind.isSpelled := heq ▸ rfl
    rw [S.literal htoken hspelled]
    refine (Follows.advance_spelled hspelled).bind fun _ => filter_tracks.bind fun filter => ?_
    refine .expect_then rfl ?_
    exact target_tracks.bind fun _ => .pure rfl
  · next heq =>
    refine (Follows.advance (isInner_front (heq ▸ rfl))).bind fun _ => ?_
    refine (Follows.commaList (S.more_of_kind fun k => decide (k = .identifier)) (fun _ _ => trivial)
      (entry_tracks (K := anyKind))).bind fun entries => ?_
    refine .expect_then rfl ?_
    refine .expect_then rfl ?_
    exact target_tracks.bind fun _ => .pure rfl
  · exact .expected _

end Link

/-! ## Statements -/

namespace Statement

mutual

/-- The statement further down. Expressions inside a text stay where they are in the text. -/
def down (lines : Nat) : Statement → Statement
  | .element p name classes attributes body =>
    .element (p.down lines) name (classes.map (ClassClause.down lines))
      (attributes.map (Expr.downItem lines)) (downAll lines body)
  | .text p segments => .text (p.down lines) segments
  | .output p value => .output (p.down lines) (value.down lines)
  | .store p name value => .store (p.down lines) name (value.down lines)
  | .binding p name value => .binding (p.down lines) name (value.down lines)
  | .link p links => .link (p.down lines) (links.map (Link.down lines))
  | .choice p branches otherwise =>
    .choice (p.down lines) (downBranches lines branches) (match otherwise with
      | none => none
      | some body => some (downAll lines body))
  | .loop p name items body => .loop (p.down lines) name (items.down lines) (downAll lines body)

def downAll (lines : Nat) : List Statement → List Statement
  | [] => []
  | s :: rest => s.down lines :: downAll lines rest

def downBranches (lines : Nat) : List (Expr × List Statement) → List (Expr × List Statement)
  | [] => []
  | (condition, body) :: rest => (condition.down lines, downAll lines body) :: downBranches lines rest

end

theorem downAll_eq_map (lines : Nat) (body : List Statement) :
    downAll lines body = body.map (down lines) := by
  induction body with
  | nil => rfl
  | cons s rest ih => rw [downAll, ih, List.map_cons]

/-- No end stands in front of a statement. -/
def startsHere (k : TokenKind) : Prop := k ≠ .dedent ∧ k.isInner = true

theorem textParser_tracks :
    Tracks S bound startsHere (down S.lines) textParser textParser :=
  .here_bind_of_ne (fun _ => And.left) fun _ => .stringValue_bind fun _ hsplit =>
    .expect_then rfl (.split_bind hsplit fun _ => .pure rfl)

theorem outputParser_tracks :
    Tracks S bound startsHere (down S.lines) outputParser outputParser :=
  .here_bind_of_ne (fun _ => And.left) fun _ => (Follows.advance fun _ => And.right).bind fun _ =>
    Expr.parser_tracks.bind fun _ => .expect_then rfl (.pure rfl)

theorem bindingParser_tracks {make : Position → String → Expr → Statement}
    (hmake : ∀ lines p name value, make (p.down lines) name (value.down lines) =
      (make p name value).down lines) :
    Tracks S bound startsHere (down S.lines) (bindingParser make) (bindingParser make) := by
  refine .here_bind_of_ne (fun _ => And.left) fun p =>
    (Follows.advance fun _ => And.right).bind fun _ => ?_
  refine .expect_bind rfl fun {t u} htoken hkind => ?_
  rw [S.literal htoken (by rw [hkind]; rfl)]
  refine .expect_then rfl (Expr.parser_tracks.bind fun value => ?_)
  exact .expect_then rfl (.pure (hmake _ _ _ _))

theorem linkParser_tracks :
    Tracks S bound startsHere (down S.lines) linkParser linkParser :=
  .here_bind_of_ne (fun _ => And.left) fun _ => (Follows.advance fun _ => And.right).bind fun _ =>
    (Follows.commaList1 Link.parser_tracks).bind fun _ => .expect_then rfl (.pure rfl)

section Nested

variable {body body' : Place → Parser (List Statement)}
  (hbody : ∀ place, Covers S bound (downAll S.lines) (body place) (body' place))

include hbody

theorem elementParser_tracks :
    Tracks S bound startsHere (down S.lines) (elementParser body) (elementParser body') := by
  refine Follows.here_bind_of_ne (fun _ => And.left) fun p => .current_bind fun {t u} htoken => ?_
  extract_lets named named'
  have hnamed : ∀ name, Tracks S bound anyKind (down S.lines) (named name) (named' name) := by
    intro name
    refine (Follows.many (S.more_of_kind fun k => decide (k = .dot)) (fun _ => of_decide_eq_true)
      ClassClause.parser_tracks ClassClause.parser_strict).bind fun classes => ?_
    refine attributesParser_tracks.bind fun attributes => Follows.kind_bind fun k => ?_
    split
    · refine (textParser_tracks.restrict ?_).bind fun _ => .pure rfl
      rintro _ ⟨rfl, -⟩
      exact ⟨TokenKind.noConfusion, rfl⟩
    · exact (Follows.advance (isInner_front rfl)).bind fun _ =>
        (hbody _).tracks.bind fun _ => .pure rfl
    · exact .expected _
  rw [S.kind htoken]
  refine .ite (fun hkind => ?_) fun _ => ?_
  · have hspelled : t.kind.isSpelled := hkind ▸ rfl
    rw [S.literal htoken hspelled]
    exact (Follows.advance_spelled hspelled).bind fun _ => Follows.pure_bind (hnamed t.literal)
  · exact Follows.pure_bind ((hnamed "div").restrict fun _ _ => trivial)

theorem branches_tracks :
    Tracks S bound (·.isInner) (downBranches S.lines) (bounded (branchesFrom body))
      (bounded (branchesFrom body')) := by
  refine Follows.rounds (fun _ => rfl) (fun _ => rfl) fun hless ih => ?_
  refine .advance_bind (fun _ => id) (Expr.parser_tracks.bind fun condition => ?_)
  refine Closes.headingEnd.tracks.bind fun _ => ?_
  refine ((hbody _).mono (Nat.le_of_lt hless)).tracks.bind fun chosen => .kind_bind ?_
  refine fun k => .ite (fun hkind => ?_) fun _ => .pure rfl
  exact (ih.restrict (isInner_front (hkind ▸ rfl))).bind fun _ => .pure rfl

theorem choiceParser_tracks :
    Tracks S bound startsHere (down S.lines) (choiceParser body) (choiceParser body') := by
  refine .here_bind_of_ne (fun _ => And.left) fun p =>
    ((branches_tracks hbody).restrict fun _ => And.right).bind fun branches => ?_
  refine (Follows.accept rfl).bind fun found => .ite (fun _ => ?_) fun _ => .pure rfl
  exact Closes.headingEnd.tracks.bind fun _ => (hbody _).tracks.bind fun _ => .pure rfl

theorem loopParser_tracks :
    Tracks S bound startsHere (down S.lines) (loopParser body) (loopParser body') := by
  refine .here_bind_of_ne (fun _ => And.left) fun p =>
    (Follows.advance fun _ => And.right).bind fun _ => ?_
  refine .expect_bind rfl fun {t u} htoken hkind => ?_
  rw [S.literal htoken (by rw [hkind]; rfl)]
  refine .expect_then rfl (Expr.parser_tracks.bind fun items => ?_)
  exact Closes.headingEnd.tracks.bind fun _ => (hbody _).tracks.bind fun _ => .pure rfl

theorem parser_tracks (place : Place) :
    Tracks S bound K (down S.lines) (parser body place) (parser body' place) := by
  have hfront : ∀ {k} {p q : Parser Statement}, k ≠ .dedent → k.isInner →
      Tracks S bound startsHere (down S.lines) p q →
      Tracks S bound (fun k' => k' = k ∧ K k') (down S.lines) p q :=
    fun hdedent hinner h => h.restrict fun _ hk => hk.1 ▸ ⟨hdedent, hinner⟩
  refine Follows.kind_bind fun k => ?_
  split
  case h_1 | h_2 => exact hfront TokenKind.noConfusion rfl (elementParser_tracks hbody)
  case h_3 => exact hfront TokenKind.noConfusion rfl textParser_tracks
  case h_4 => exact hfront TokenKind.noConfusion rfl outputParser_tracks
  case h_5 => exact hfront TokenKind.noConfusion rfl (choiceParser_tracks hbody)
  case h_6 => exact hfront TokenKind.noConfusion rfl (loopParser_tracks hbody)
  case h_7 =>
    exact .ite (fun _ => .refuse rfl (by simp [Cause.IsAt])) fun _ =>
      hfront TokenKind.noConfusion rfl (bindingParser_tracks fun _ _ _ _ => rfl)
  case h_8 =>
    exact .ite (fun _ => hfront TokenKind.noConfusion rfl (bindingParser_tracks fun _ _ _ _ => rfl))
      fun _ => .refuse rfl (by simp [Cause.IsAt])
  case h_9 =>
    exact .ite (fun _ => hfront TokenKind.noConfusion rfl linkParser_tracks) fun _ =>
      .refuse rfl (by simp [Cause.IsAt])
  case h_10 => exact .expected _

end Nested

theorem body_covers (place : Place) : Covers S bound (downAll S.lines)
    (bounded fun depth => bodyWithin depth place) (bounded fun depth => bodyWithin depth place) := by
  refine @Follows.loop _ S True bound anyKind _ Place Eq
    (fun later place => indented (parser later place))
    (fun later place => indented (parser later place)) bodyWithin bodyWithin (fun _ _ => rfl)
    (fun _ _ => rfl) ?_ _ _ rfl
  rintro less rounds before later - ih place _ rfl
  have hmove : downAll S.lines = List.map (down S.lines) := funext (downAll_eq_map _)
  rw [hmove]
  exact .indented (parser_tracks (fun _ => ih rfl) place)
    (parser_settles (fun inner => (bodyWithin_rests rounds inner).again before) place).strict

end Statement

namespace MarkupBlock

def down (lines : Nat) (b : MarkupBlock) : MarkupBlock where
  name := b.name
  params := b.params.map (Param.down lines)
  events := b.events
  body := b.body.map (Statement.down lines)
  position := b.position.down lines

theorem parser_closes (position : Position) :
    Closes S bound (down S.lines) (MarkupBlock.parser position)
      (MarkupBlock.parser (position.down S.lines)) := by
  have hname : Tracks S bound anyKind id (do return (← expect .identifier).literal)
      (do return (← expect .identifier).literal) :=
    .expect_bind rfl fun htoken hkind => .pure (S.literal htoken (by rw [hkind]; rfl))
  refine .expect_bind rfl fun {t u} htoken hkind => ?_
  rw [S.literal htoken (by rw [hkind]; rfl)]
  refine ((Param.listParser_tracks rfl).closes fun params => ?_).toFollows
  have hlater : ∀ events, Closes S bound (down S.lines) (do
      headingEnd
      let body ← bounded fun depth => Statement.bodyWithin depth .block
      return ⟨t.literal, params, events, body, position⟩) (do
      headingEnd
      let body ← bounded fun depth => Statement.bodyWithin depth .block
      return ⟨t.literal, params.map (Param.down S.lines), events, body, position.down S.lines⟩) := by
    refine fun events => Closes.headingEnd.bind fun _ =>
      (Statement.body_covers .block).bind fun body => .pure ?_
    rw [Statement.downAll_eq_map]
    rfl
  refine (Follows.accept rfl).closes fun found => .ite ?_ (hlater [])
  refine (Follows.commaList1 hname).closes fun events => ?_
  rw [List.map_id]
  exact hlater events

end MarkupBlock
end Stencil
