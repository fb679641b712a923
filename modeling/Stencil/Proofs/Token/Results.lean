import Mathlib.Data.List.Infix
import Stencil.Template.Module
import Stencil.Template.Reading

/-!
# What readers give

A property of the values that a reader gives, if all tokens of the source have a property. It is put
together the way the reader is: a reader takes from the front, so what it leaves to the next one has
the property of the tokens too.
-/
namespace Stencil

open List

/-- A result that passes a test is there. -/
theorem exists_of_toOption {ε α : Type} {result : Except ε α} {test : α → Bool}
    (h : result.toOption.any test) : ∃ a, result = .ok a ∧ test a := by
  cases result with
  | error fault => cases h
  | ok a => exact ⟨a, rfl, h⟩

namespace Parser

variable {α β : Type}

/-- What a reader gives if the tokens have a property, which may be one of the reading as well. -/
def Gives (T : Reading → Token → Prop) (p : Parser α) (P : α → Prop) : Prop :=
  ∀ reading tokens a rest, (∀ t ∈ tokens, T reading t) → T reading reading.ending.token →
    p reading tokens = .ok (a, rest) → P a

namespace Gives

variable {T : Reading → Token → Prop} {p q : Parser α} {f : α → Parser β} {P : α → Prop}
  {Q : β → Prop}

theorem weaken {R : α → Prop} (h : p.Gives T P) (hPR : ∀ a, P a → R a) : p.Gives T R :=
  fun reading tokens a rest htokens hending hok => hPR a (h reading tokens a rest htokens hending hok)

theorem any (p : Parser α) : p.Gives T fun _ => True := fun _ _ _ _ _ _ _ => trivial

theorem pure {a : α} (h : P a) : (Pure.pure a : Parser α).Gives T P := by
  rintro reading tokens b rest - - ⟨⟩
  exact h

theorem bind (hp : p.Gives T P) (hf : ∀ a, P a → (f a).Gives T Q) :
    (p >>= f).Gives T Q := by
  intro reading tokens b rest htokens hending h
  obtain ⟨a, middle, ha, hb⟩ := bind_eq_ok.mp h
  exact hf a (hp reading tokens a middle htokens hending ha) reading middle b rest
    (fun t ht => htokens t ((p.suffix ha).subset ht)) hending hb

/-- Whatever the first reader gives. -/
theorem after (hf : ∀ a, (f a).Gives T Q) : (p >>= f).Gives T Q :=
  (any p).bind fun a _ => hf a

theorem fail (cause : Token → Cause) : (Parser.fail cause : Parser α).Gives T P := by
  intro reading tokens a rest _ _ h
  cases h

theorem ite {c : Prop} [Decidable c] (hp : c → p.Gives T P) (hq : ¬c → q.Gives T P) :
    (if c then p else q).Gives T P := by
  split
  · next hc => exact hp hc
  · next hc => exact hq hc

theorem bounded {loop : Nat → Parser α} (h : ∀ rounds, (loop rounds).Gives T P) :
    (Parser.bounded loop).Gives T P :=
  fun reading tokens => h (tokens.length + 1) reading tokens

theorem round {step : (Parser α → Parser α) → Parser α} (h : ∀ left, (step (again left)).Gives T P) :
    (Parser.round step).Gives T P :=
  fun reading tokens => h tokens.length reading tokens

theorem again (h : p.Gives T P) (before : Nat) : (Parser.again before p).Gives T P := h

theorem current : Parser.current.Gives T fun t => ∃ reading, T reading t := by
  rintro reading tokens t rest htokens hending ⟨⟩
  cases tokens with
  | nil => exact ⟨reading, hending⟩
  | cons t tokens => exact ⟨reading, htokens t mem_cons_self⟩

theorem split (text : String) : (Parser.split text).Gives T fun segments =>
    ∃ reading t, T reading t ∧ segments = reading.split text := by
  rintro reading tokens segments rest - hending ⟨⟩
  exact ⟨reading, _, hending, rfl⟩

/-- A token that is asked for is one of the source. -/
theorem expect (k : TokenKind) :
    (Parser.expect k).Gives T fun t => (∃ reading, T reading t) ∧ t.kind = k :=
  current.bind fun _ ht => ite (fun hk => after fun _ => pure ⟨ht, hk⟩) fun _ => fail _

theorem stringValue : Parser.stringValue.Gives T fun text =>
    ∃ reading t, T reading t ∧ t.kind = .string ∧ Literal.value t.literal = .ok text := by
  refine (expect .string).bind fun t ht => ?_
  obtain ⟨⟨reading, ht⟩, hkind⟩ := ht
  split
  · next hvalue => exact pure ⟨reading, t, ht, hkind, hvalue⟩
  · rintro _ _ _ _ - - ⟨⟩

variable (more : Token → Bool)

theorem manyWhile (h : p.Gives T P) (rounds : Nat) :
    (Parser.manyWhile more p rounds).Gives T fun xs => ∀ x ∈ xs, P x := by
  induction rounds with
  | zero => exact pure (forall_mem_nil _)
  | succ rounds ih =>
    refine round fun left => after fun t => ite (fun _ => ?_) fun _ => pure (forall_mem_nil _)
    exact h.bind fun x hx => (ih.again left).bind fun xs hxs => pure (forall_mem_cons.mpr ⟨hx, hxs⟩)

theorem many (h : p.Gives T P) :
    (Parser.many more p).Gives T fun xs => ∀ x ∈ xs, P x :=
  bounded (manyWhile more h)

/-- There is always a first round, so there is an item if every token may start one. -/
theorem commaListFrom (h : p.Gives T P) (rounds : Nat) :
    (Parser.commaListFrom more p rounds).Gives T fun xs =>
      (rounds ≠ 0 → (∀ t, more t) → xs ≠ []) ∧ ∀ x ∈ xs, P x := by
  induction rounds with
  | zero => exact pure ⟨fun hne => absurd rfl hne, forall_mem_nil _⟩
  | succ rounds ih =>
    refine round fun left => after fun t => ite (fun _ => ?_) fun ht =>
      pure ⟨fun _ hall => absurd (hall t) ht, forall_mem_nil _⟩
    refine h.bind fun x hx => after fun found => ite (fun _ => ?_) fun _ =>
      pure ⟨by simp, forall_mem_singleton.mpr hx⟩
    exact (ih.again left).bind fun xs hxs => pure ⟨by simp, forall_mem_cons.mpr ⟨hx, hxs.2⟩⟩

theorem commaList (h : p.Gives T P) :
    (Parser.commaList more p).Gives T fun xs => ∀ x ∈ xs, P x :=
  bounded fun rounds => (commaListFrom more h rounds).weaken fun _ => And.right

theorem commaList1 (h : p.Gives T P) :
    (Parser.commaList1 p).Gives T fun xs => xs ≠ [] ∧ ∀ x ∈ xs, P x := by
  intro reading tokens xs rest htokens hending hok
  obtain ⟨hne, hxs⟩ := commaListFrom (fun _ => true) h (tokens.length + 1) reading tokens xs rest
    htokens hending hok
  exact ⟨hne (Nat.succ_ne_zero _) fun _ => rfl, hxs⟩

theorem indented (h : p.Gives T P) :
    (Parser.indented p).Gives T fun xs => ∀ x ∈ xs, P x := by
  refine after fun found => ite (fun _ => ?_) fun _ => pure (forall_mem_nil _)
  exact (many _ h).bind fun xs hxs => after fun _ => pure hxs

end Gives
end Parser

variable {T : Reading → Token → Prop}

/-! ## Expressions -/

namespace Expr

/-- What holds of an expression as soon as it holds of those in it. -/
structure Grows (T : Reading → Token → Prop) (P : Expr → Prop) : Prop where
  name : ∀ {reading t p}, T reading t → t.kind = .identifier → P (.name p t.literal)
  number : ∀ {reading t p}, T reading t → t.kind = .number → P (.number p t.literal)
  string : ∀ {reading t text p}, T reading t → t.kind = .string →
    Literal.value t.literal = .ok text → ∀ {reading' t'}, T reading' t' →
    P (ofSegments p (reading'.split text))
  dictionary : ∀ {reading t p items}, T reading t → t.kind = .opening .brace →
    (∀ item ∈ items, P item.2) → P (.dictionary p items)
  list : ∀ {p items}, (∀ x ∈ items, P x) → P (.list p items)
  new : ∀ {p x}, P x → P (.new p x)
  not : ∀ {p x}, P x → P (.not p x)
  and : ∀ {p x y}, P x → P y → P (.and p x y)
  or : ∀ {p x y}, P x → P y → P (.or p x y)
  arithmetic : ∀ {p op x y}, P x → P y → P (.arithmetic p op x y)
  relation : ∀ {p op x y}, P x → P y → P (.relation p op x y)
  member : ∀ {reading t p x}, P x → T reading t → t.isWord → P (.attribute p x t.literal)
  item : ∀ {p x y}, P x → P y → P (.item p x y)
  call : ∀ {p x items}, P x → (∀ y ∈ items, P y) → P (.call p x items)

section Readers

variable {P : Expr → Prop} (hP : Grows T P) {operand inner : Parser Expr}
  (hoperand : operand.Gives T P) (hinner : inner.Gives T P)

include hP

theorem Grows.join {joining : Joining} {k : TokenKind} {join : Position → Expr → Expr → Expr}
    (h : joining ∈ [product, sum, comparing, conjunction, disjunction]) (hjoin : joining k = some join)
    {p : Position} {x y : Expr} (hx : P x) (hy : P y) : P (join p x y) := by
  simp only [mem_cons, not_mem_nil, or_false] at h
  rcases h with rfl | rfl | rfl | rfl | rfl
  all_goals
    simp only [product, sum, comparing, conjunction, disjunction] at hjoin
    split at hjoin <;> cases hjoin
  all_goals
    first
    | exact hP.arithmetic hx hy
    | exact hP.relation hx hy
    | exact hP.and hx hy
    | exact hP.or hx hy

include hoperand in
theorem chain_gives {joining : Joining}
    (h : joining ∈ [product, sum, comparing, conjunction, disjunction]) :
    (chain operand joining).Gives T P := by
  refine hoperand.bind fun left hleft => .bounded fun rounds => ?_
  induction rounds generalizing left with
  | zero => exact .pure hleft
  | succ rounds ih =>
    refine .round fun before => .after fun k => ?_
    split
    · exact .pure hleft
    · next join hjoin =>
      exact .after fun p => .after fun _ => hoperand.bind fun right hright =>
        (ih _ (hP.join h hjoin hleft hright)).again before

omit hP in
include hoperand in
theorem prefixed_gives (word : Keyword) (wrap : Position → Expr → Expr)
    (hwrap : ∀ {p x}, P x → P (wrap p x)) : (prefixed word wrap operand).Gives T P := by
  refine .bounded fun rounds => ?_
  induction rounds with
  | zero => exact hoperand
  | succ rounds ih =>
    refine .round fun left => .after fun k => .ite (fun _ => ?_) fun _ => hoperand
    exact .after fun p => .after fun _ => (ih.again left).bind fun _ hx => .pure (hwrap hx)

omit hP in
include hinner in
theorem listUntil_gives (b : Bracket) :
    (listUntil inner b).Gives T fun xs => ∀ x ∈ xs, P x :=
  (hinner.commaList _).bind fun _ hxs => .after fun _ => .pure hxs

include hinner

theorem atom_gives : (atom inner).Gives T P := by
  refine Parser.Gives.current.bind fun t ht => .after fun p => ?_
  obtain ⟨_, ht⟩ := ht
  split
  case h_1 hkind => exact .after fun _ => .pure (hP.name ht hkind)
  case h_2 hkind => exact .after fun _ => .pure (hP.number ht hkind)
  case h_3 =>
    refine Parser.Gives.stringValue.bind fun text htext => (Parser.Gives.split text).bind ?_
    obtain ⟨_, u, hu, hkind, hvalue⟩ := htext
    rintro segments ⟨reading, _, hreading, rfl⟩
    exact .pure (hP.string hu hkind hvalue hreading)
  case h_4 hkind =>
    have hitem : (dictionaryItem inner).Gives T fun item => P item.2 :=
      .after fun _ => .after fun _ => hinner.bind fun _ hx => .pure hx
    exact .after fun _ => (hitem.commaList _).bind fun _ hitems => .after fun _ =>
      .pure (hP.dictionary ht hkind hitems)
  case h_5 =>
    exact .after fun _ => (listUntil_gives hinner _).bind fun _ hitems => .pure (hP.list hitems)
  case h_6 => exact .after fun _ => hinner.bind fun _ hx => .after fun _ => .pure hx
  case h_7 => exact .fail _

theorem suffixed_gives : (suffixed inner).Gives T P := by
  refine (atom_gives hP hinner).bind fun x hx => .bounded fun rounds => ?_
  induction rounds generalizing x with
  | zero => exact .pure hx
  | succ rounds ih =>
    have hagain : ∀ {y}, P y → ∀ left, (Parser.again left (suffixesFrom inner rounds y)).Gives T P :=
      fun hy => (ih _ hy).again
    refine .round fun left => .after fun p => .after fun k => ?_
    split
    · refine .after fun _ => Parser.Gives.current.bind fun t ht => .ite (fun hword => ?_) fun _ => .fail _
      obtain ⟨_, ht⟩ := ht
      exact .after fun _ => hagain (hP.member hx ht hword) left
    · exact .after fun _ => hinner.bind fun _ hindex => .after fun _ => hagain (hP.item hx hindex) left
    · exact .after fun _ => (listUntil_gives hinner _).bind fun _ hitems =>
        hagain (hP.call hx hitems) left
    · exact .pure hx

theorem level_gives : (level inner).Gives T P := by
  have hwords := prefixed_gives (suffixed_gives hP hinner) .new .new hP.new
  have hproducts := chain_gives hP hwords (.head _)
  have hsums := chain_gives hP hproducts (.tail _ (.head _))
  have hcomparisons := chain_gives hP hsums (.tail _ (.tail _ (.head _)))
  have hnegations := prefixed_gives hcomparisons .not .not hP.not
  have hconjunctions := chain_gives hP hnegations (.tail _ (.tail _ (.tail _ (.head _))))
  exact chain_gives hP hconjunctions (by simp)

end Readers

/-- What grows with expressions holds of the expression that is read from a source. -/
theorem of_readWith {P : Expr → Prop} (hP : Grows T P) {split : String → List Segment}
    {file source : String} {x : Expr}
    (hscan : (∀ t ∈ (Scan.of file source).tokens, T ⟨file, (Scan.of file source).ending, split⟩ t) ∧
      T ⟨file, (Scan.of file source).ending, split⟩ (Scan.of file source).ending.token)
    (h : readWith split file source = .ok x) : P x := by
  have hwithin : ∀ depth, (within depth).Gives T P := by
    intro depth
    induction depth with
    | zero => exact .fail _
    | succ depth ih => exact .round fun left => level_gives hP (ih.again left)
  have hline : line.Gives T P :=
    (Parser.Gives.bounded hwithin).bind fun _ hx => .after fun _ => .pure hx
  have hwhole : whole.Gives T P := hline.bind fun _ hx => .after fun _ => .pure hx
  rw [readWith] at h
  unfold Except.map at h
  split at h
  · cases h
  · next result hresult =>
    cases h
    exact hwhole _ _ _ _ hscan.1 hscan.2 hresult

end Expr

/-! ## Parameters -/

theorem Param.listParser_gives {kind : TokenKind} {P : Param → Prop}
    (h : (Param.parser kind).Gives T P) :
    (Param.listParser kind).Gives T fun params => ∀ p ∈ params, P p := by
  refine .after fun found => .ite (fun _ => ?_) fun _ => .pure (forall_mem_nil _)
  exact (h.commaList _).bind fun params hparams => .after fun _ => .pure hparams

/-- The default of a parameter is the literal of a string. -/
theorem Param.parser_fallback (kind : TokenKind) {P : String → Prop} :
    (Param.parser kind).Gives (fun _ t => t.kind = .string → P t.literal)
      fun p => ∀ literal ∈ p.fallback, P literal := by
  refine .after fun position => .after fun name => .after fun found => .ite (fun _ => ?_) fun _ =>
    .pure ?_
  · refine (Parser.Gives.expect .string).bind fun t ht => .pure ?_
    obtain ⟨⟨-, ht⟩, hkind⟩ := ht
    rintro literal ⟨⟩
    exact ht hkind
  · rintro literal ⟨⟩

/-! ## Statements -/

namespace Statement

/-- What holds of a statement at its place as soon as it holds of those in it, each at its own. -/
structure Grows (C : ClassClause → Prop) (S : Place → Statement → Prop) : Prop where
  element : ∀ {place p name classes attributes body}, (∀ c ∈ classes, C c) →
    (∀ s ∈ body, S .element s) → S place (.element p name classes attributes body)
  text : ∀ {place p segments}, S place (.text p segments)
  output : ∀ {place p value}, S place (.output p value)
  choice : ∀ {place p branches otherwise}, (∀ b ∈ branches, ∀ s ∈ b.2, S .branch s) →
    (∀ body ∈ otherwise, ∀ s ∈ body, S .branch s) → S place (.choice p branches otherwise)
  loop : ∀ {place p name items body}, (∀ s ∈ body, S .branch s) → S place (.loop p name items body)
  binding : ∀ {place p name value}, place ≠ .branch → S place (.binding p name value)
  store : ∀ {p name value}, S .element (.store p name value)
  link : ∀ {p links}, S .element (.link p links)

section Nested

variable {C : ClassClause → Prop} {S : Place → Statement → Prop}
  {body : Place → Parser (List Statement)} (hS : Grows C S)
  (hclass : ClassClause.parser.Gives T C)
  (hbody : ∀ place, (body place).Gives T fun statements => ∀ s ∈ statements, S place s)

include hS

variable (place : Place)

theorem textParser_gives : textParser.Gives T (S place) :=
  .after fun _ => .after fun _ => .after fun _ => .after fun _ => .pure hS.text

include hbody

include hclass in
theorem elementParser_gives : (elementParser body).Gives T (S place) := by
  refine .after fun p => .after fun t => ?_
  extract_lets named
  have hnamed : ∀ name, (named name).Gives T (S place) := by
    refine fun name => (hclass.many _).bind fun classes hclasses => .after fun attributes => ?_
    refine .after fun k => ?_
    split
    · exact (textParser_gives hS .element).bind fun s hs =>
        .pure (hS.element hclasses (forall_mem_singleton.mpr hs))
    · exact .after fun _ => (hbody .element).bind fun _ h => .pure (hS.element hclasses h)
    · exact .fail _
  exact .ite (fun _ => .after fun _ => .after hnamed) fun _ => .after hnamed

omit hS in
theorem branchesFrom_gives (rounds : Nat) : (branchesFrom body rounds).Gives T
    fun branches => ∀ b ∈ branches, ∀ s ∈ b.2, S .branch s := by
  induction rounds with
  | zero => exact .pure (forall_mem_nil _)
  | succ rounds ih =>
    refine .round fun left => .after fun _ => .after fun condition => .after fun _ =>
      (hbody .branch).bind fun chosen hchosen => .after fun k => .ite (fun _ => ?_) fun _ => .pure ?_
    · exact (ih.again left).bind fun branches h => .pure (forall_mem_cons.mpr ⟨hchosen, h⟩)
    · exact forall_mem_singleton.mpr hchosen

theorem choiceParser_gives : (choiceParser body).Gives T (S place) := by
  refine .after fun p => (Parser.Gives.bounded (branchesFrom_gives hbody)).bind
    fun branches hbranches => .after fun found => .ite (fun _ => .after fun _ => ?_) fun _ => .pure ?_
  · refine (hbody .branch).bind fun otherwise h => .pure (hS.choice hbranches ?_)
    rintro _ ⟨⟩
    exact h
  · exact hS.choice hbranches nofun

theorem loopParser_gives : (loopParser body).Gives T (S place) :=
  .after fun _ => .after fun _ => .after fun _ => .after fun _ => .after fun _ => .after fun _ =>
    (hbody .branch).bind fun _ h => .pure (hS.loop h)

include hclass in
theorem parser_gives : (parser body place).Gives T (S place) := by
  have hbinding : ∀ make : Position → String → Expr → Statement,
      (∀ p name value, S place (make p name value)) → (bindingParser make).Gives T (S place) :=
    fun make hmake => .after fun _ => .after fun _ => .after fun _ => .after fun _ =>
      .after fun _ => .after fun _ => .pure (hmake _ _ _)
  refine .after fun k => ?_
  split
  case h_1 | h_2 => exact elementParser_gives hS hclass hbody place
  case h_3 => exact textParser_gives hS place
  case h_4 => exact .after fun _ => .after fun _ => .after fun _ => .after fun _ => .pure hS.output
  case h_5 => exact choiceParser_gives hS hbody place
  case h_6 => exact loopParser_gives hS hbody place
  case h_7 =>
    exact .ite (fun _ => .fail _) fun hplace => hbinding _ fun _ _ _ => hS.binding hplace
  case h_8 =>
    refine .ite (fun hplace => hbinding _ fun _ _ _ => ?_) fun _ => .fail _
    exact hplace ▸ hS.store
  case h_9 =>
    refine .ite (fun hplace => .after fun _ => .after fun _ => .after fun _ => .after fun _ => ?_)
      fun _ => .fail _
    exact .pure (hplace ▸ hS.link)
  case h_10 => exact .fail _

end Nested

end Statement

section Bodies

variable {C : ClassClause → Prop} {S : Place → Statement → Prop} (hS : Statement.Grows C S)
  (hclass : ClassClause.parser.Gives T C)

include hS hclass

theorem Statement.bodyWithin_gives (depth : Nat) (place : Place) :
    (bodyWithin depth place).Gives T fun statements => ∀ s ∈ statements, S place s := by
  induction depth generalizing place with
  | zero => exact .pure (forall_mem_nil _)
  | succ depth ih =>
    refine .round fun left => (parser_gives hS hclass (fun inner => ?_) place).indented
    exact (ih inner).again left

/-- What grows with statements holds of all statements of a block. -/
theorem MarkupBlock.parser_gives (position : Position) :
    (MarkupBlock.parser position).Gives T fun b => ∀ s ∈ b.body, S .block s := by
  refine .after fun name => .after fun params => .after fun found => ?_
  extract_lets headed
  have hheaded : ∀ events, (headed events).Gives T fun b => ∀ s ∈ b.body, S .block s :=
    fun events => .after fun _ => (Parser.Gives.bounded fun depth =>
      Statement.bodyWithin_gives hS hclass depth .block).bind fun _ h => .pure h
  exact .ite (fun _ => .after hheaded) fun _ => .after hheaded

end Bodies

/-! ## Templates -/

section Blocks

variable {P : StyleBlock → Prop} {Q : MarkupBlock → Prop}

/-- A property of style blocks and one of markup blocks. -/
def Block.Holds (P : StyleBlock → Prop) (Q : MarkupBlock → Prop) : Block → Prop
  | .style b => P b
  | .markup b => Q b
  | .importModule .. | .importNames .. => True

variable (hstyle : ∀ position, (StyleBlock.parser position).Gives T P)
  (hmarkup : ∀ position, (MarkupBlock.parser position).Gives T Q)

include hstyle hmarkup

theorem Block.parser_gives : Block.parser.Gives T (Block.Holds P Q) := by
  refine .after fun position => .after fun k => ?_
  split
  · exact .after fun _ => (hstyle position).bind fun _ h => .pure h
  · exact .after fun _ => (hmarkup position).bind fun _ h => .pure h
  · exact (hmarkup position).bind fun _ h => .pure h
  · refine .after fun _ => .after fun found => .ite (fun _ => ?_) fun _ => ?_
    · exact .after fun _ => .after fun _ => .after fun _ => .pure trivial
    · exact .after fun _ => .after fun _ => .pure trivial
  · exact .fail _

/-- What the readers of blocks give holds of all blocks of a template. -/
theorem Template.parser_gives : Template.parser.Gives T fun t =>
    (∀ b ∈ t.styleBlocks, P b) ∧ ∀ b ∈ t.markupBlocks, Q b := by
  refine .after fun position => ((Block.parser_gives hstyle hmarkup).many _).bind
    fun blocks h => .pure ⟨fun b hb => ?_, fun b hb => ?_⟩
  all_goals
    obtain ⟨block, hmem, hblock⟩ := mem_filterMap.mp hb
    cases block <;> cases hblock
    exact h _ hmem

end Blocks

/-- The defaults in style blocks are literals of strings. -/
theorem Template.parser_fallbacks (P : String → Prop) :
    Template.parser.Gives (fun _ t => t.kind = .string → P t.literal) fun t =>
      ∀ b ∈ t.styleBlocks, ∀ p ∈ b.params, ∀ literal ∈ p.fallback, P literal :=
  (parser_gives (fun _ => (Param.listParser_gives (Param.parser_fallback _)).bind fun _ hparams =>
    .after fun _ => .after fun _ => .pure hparams) fun _ => .any _).weaken fun _ h => h.1

/-- What holds of a template if its tokens have a property. -/
theorem Template.of_read {P : Template → Prop} {file source : String} {t : Template}
    (hP : Template.parser.Gives T P)
    (hscan : (∀ t ∈ (Scan.of file source).tokens, T (Session.start file source).reading t) ∧
      T (Session.start file source).reading (Scan.of file source).ending.token)
    (h : Template.read file source = .ok t) : P t := by
  rw [Template.read, Session.read] at h
  simp only [Session.start] at h
  split at h
  · next result rest heq =>
    cases h
    exact hP _ _ _ _ hscan.1 hscan.2 heq
  · cases h

end Stencil
