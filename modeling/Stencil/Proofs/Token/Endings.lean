import Stencil.Proofs.Token.Trace
import Stencil.Template.Reading

/-!
# Where readers stop

The readers of statements, rules and blocks stop after a line break, or after the levels that end with
it. What they take is said of the tokens themselves. So they take at least one token, and a source that
is read to its end has no line that is left open.
-/
namespace Stencil

open List

/-- The tokens end with a line break or the start of a level, and the ends of levels. -/
def Settled (ts : List Token) : Prop :=
  ∃ front t levels, ts = front ++ t :: levels ∧ (t.kind = .newline ∨ t.kind = .indent) ∧
    ∀ u ∈ levels, u.kind = .dedent

namespace Settled

variable {front ts : List Token}

theorem singleton {t : Token} (h : t.kind = .newline ∨ t.kind = .indent) : Settled [t] :=
  ⟨[], t, [], rfl, h, fun _ hu => absurd hu not_mem_nil⟩

theorem append (h : Settled ts) (front : List Token) : Settled (front ++ ts) := by
  obtain ⟨start, t, levels, rfl, ht, hlevels⟩ := h
  exact ⟨front ++ start, t, levels, (append_assoc _ _ _).symm, ht, hlevels⟩

theorem dedent (h : Settled ts) {u : Token} (hu : u.kind = .dedent) : Settled (ts ++ [u]) := by
  obtain ⟨start, t, levels, rfl, ht, hlevels⟩ := h
  refine ⟨start, t, levels ++ [u], append_assoc _ _ _, ht, fun v hv => ?_⟩
  rcases mem_append.mp hv with hv | hv
  · exact hlevels v hv
  · exact mem_singleton.mp hv ▸ hu

theorem ne_nil (h : Settled ts) : ts ≠ [] := by
  obtain ⟨start, t, levels, rfl, -⟩ := h
  exact append_ne_nil_of_right_ne_nil _ (cons_ne_nil _ _)

end Settled

/-- Past the last token stands the end of the source or the token of a fault. -/
def Reading.IsEnded (reading : Reading) : Prop :=
  reading.ending.token.kind = .eof ∨ reading.ending.token.kind = .error

theorem Reading.IsEnded.ne {reading : Reading} {k : TokenKind} (h : reading.IsEnded)
    (heof : k ≠ .eof) (herror : k ≠ .error) : reading.ending.token.kind ≠ k := by
  rcases h with h | h
  · exact h ▸ heof.symm
  · exact h ▸ herror.symm

namespace Parser

variable {α β : Type} {p q : Parser α} {f : α → Parser β} {reading : Reading} {k : TokenKind}
  {ts : List Token}

theorem fail_ne_ok (cause : Token → Cause) (reading : Reading) (ts : List Token) (a : α)
    (rest : List Token) : fail cause reading ts ≠ .ok (a, rest) := by
  intro h
  cases h

theorem bind_assoc {γ : Type} (p : Parser α) (f : α → Parser β) (g : β → Parser γ) :
    (p >>= f >>= g) = p >>= fun a => f a >>= g := by
  have hrun : ∀ reading ts, (p >>= f >>= g) reading ts = (p >>= fun a => f a >>= g) reading ts := by
    intro reading ts
    change (Parser.bind (Parser.bind p f) g) reading ts =
      (Parser.bind p fun a => Parser.bind (f a) g) reading ts
    simp only [Parser.bind]
    cases p reading ts <;> rfl
  have hlog : ∀ reading ts,
      (p >>= f >>= g).log reading ts = (p >>= fun a => f a >>= g).log reading ts := by
    intro reading ts
    change (Parser.bind (Parser.bind p f) g).log reading ts =
      (Parser.bind p fun a => Parser.bind (f a) g).log reading ts
    simp only [Parser.bind, append_assoc]
    cases p reading ts <;> rfl
  exact Parser.ext (funext₂ hrun) (funext₂ hlog)

theorem accept_bind_eq (k : TokenKind) (f : Bool → Parser β) : (accept k >>= f) =
    kind >>= fun k' => if k' = k then advance >>= fun _ => f true else f false := by
  unfold accept
  rw [bind_assoc]
  refine congrArg (kind >>= ·) (funext fun k' => ?_)
  split <;> rfl

theorem expect_eq (k : TokenKind) (reading : Reading) (ts : List Token) :
    expect k reading ts =
      if (ts.headD reading.ending.token).kind = k then
        .ok (ts.headD reading.ending.token, ts.tail)
      else expected (.kind k) reading ts := by
  change (if (ts.headD reading.ending.token).kind = k then _ else _ : Parser Token) reading ts = _
  split <;> rfl

theorem accept_eq (k : TokenKind) (reading : Reading) (ts : List Token) :
    accept k reading ts =
      if (ts.headD reading.ending.token).kind = k then .ok (true, ts.tail) else .ok (false, ts) := by
  change (if (ts.headD reading.ending.token).kind = k then _ else _ : Parser Bool) reading ts = _
  split <;> rfl

/-- A token of another kind than the one that ends the scan is one of the tokens. -/
theorem eq_cons_of_kind (hk : reading.ending.token.kind ≠ k)
    (h : (ts.headD reading.ending.token).kind = k) : ∃ t, ts = t :: ts.tail ∧ t.kind = k := by
  cases ts with
  | nil => exact absurd h hk
  | cons t ts => exact ⟨t, rfl, h⟩

theorem expect_eq_ok {rest : List Token} {t : Token} (hk : reading.ending.token.kind ≠ k)
    (h : expect k reading ts = .ok (t, rest)) : ts = t :: rest ∧ t.kind = k := by
  rw [expect_eq] at h
  split at h
  · next hkind =>
    obtain ⟨u, hts, hu⟩ := eq_cons_of_kind hk hkind
    rw [hts] at h
    cases h
    exact ⟨hts, hu⟩
  · exact absurd h (fail_ne_ok _ _ _ _ _)

section Rounds

variable {more : Token → Bool} {reading : Reading} {ts rest : List Token} {xs : List α}

theorem manyWhile_of_not (h : more (ts.headD reading.ending.token) = false) (rounds : Nat) :
    manyWhile more p rounds reading ts = .ok ([], ts) := by
  cases rounds with
  | zero => rfl
  | succ rounds =>
    change (if more (ts.headD reading.ending.token) = true then _ else _ : Parser (List α)) reading ts = _
    rw [h]
    rfl

theorem manyWhile_eq_ok (h : more (ts.headD reading.ending.token)) {rounds : Nat} :
    manyWhile more p (rounds + 1) reading ts = .ok (xs, rest) ↔
      ∃ x middle ys, p reading ts = .ok (x, middle) ∧
        manyWhile more p rounds reading middle = .ok (ys, rest) ∧ xs = x :: ys := by
  change (if more (ts.headD reading.ending.token) = true then _ else _ : Parser (List α)) reading ts = _ ↔ _
  rw [if_pos h]
  constructor
  · intro hok
    obtain ⟨x, middle, hx, hok⟩ := bind_eq_ok.mp hok
    obtain ⟨ys, later, hys, hpure⟩ := bind_eq_ok.mp hok
    cases hpure
    exact ⟨x, middle, ys, hx, hys, rfl⟩
  · rintro ⟨x, middle, ys, hx, hys, rfl⟩
    exact bind_eq_ok.mpr ⟨x, middle, hx, bind_eq_ok.mpr ⟨ys, rest, hys, rfl⟩⟩

end Rounds

/-- What the reader takes is settled. It may take nothing only if it is `idle`. -/
def Ends (idle : Prop) (p : Parser α) : Prop :=
  ∀ reading ts a rest, reading.IsEnded → p reading ts = .ok (a, rest) →
    ∃ taken, ts = taken ++ rest ∧ (idle ∧ taken = [] ∨ Settled taken)

abbrev Settles (p : Parser α) : Prop := p.Ends False

abbrev Rests (p : Parser α) : Prop := p.Ends True

namespace Ends

variable {idle : Prop}

theorem rests (h : p.Ends idle) : p.Rests := by
  intro reading ts a rest hended hok
  obtain ⟨taken, hts, htaken⟩ := h _ _ _ _ hended hok
  exact ⟨taken, hts, htaken.imp_left fun hnone => ⟨trivial, hnone.2⟩⟩

theorem peek (see : String → Token → Token → α) : (Parser.peek see).Rests := by
  rintro reading ts _ _ _ ⟨⟩
  exact ⟨[], rfl, .inl ⟨trivial, rfl⟩⟩

theorem pure (a : α) : (Pure.pure a : Parser α).Rests := peek fun _ _ _ => a

theorem split (text : String) : (Parser.split text).Rests := by
  rintro reading ts _ _ _ ⟨⟩
  exact ⟨[], rfl, .inl ⟨trivial, rfl⟩⟩

theorem fail (cause : Token → Cause) : (Parser.fail cause : Parser α).Ends idle :=
  fun _ _ _ _ _ hok => absurd hok (fail_ne_ok _ _ _ _ _)

theorem ite {c : Prop} [Decidable c] (hp : p.Ends idle) (hq : q.Ends idle) :
    (if c then p else q).Ends idle := by
  split
  · exact hp
  · exact hq

theorem bind (hp : p.Ends idle) (hf : ∀ a, (f a).Rests) : (p >>= f).Ends idle := by
  intro reading ts b rest hended hok
  obtain ⟨a, middle, ha, hb⟩ := bind_eq_ok.mp hok
  obtain ⟨front, rfl, hfront⟩ := hp _ _ _ _ hended ha
  obtain ⟨taken, rfl, ⟨-, rfl⟩ | htaken⟩ := hf a _ _ _ _ hended hb
  · exact ⟨front, rfl, hfront⟩
  · exact ⟨front ++ taken, (append_assoc _ _ _).symm, .inr (htaken.append front)⟩

theorem bounded {loop : Nat → Parser α} (h : ∀ rounds, (loop rounds).Ends idle) :
    (Parser.bounded loop).Ends idle :=
  fun reading ts => h (ts.length + 1) reading ts

theorem round {step : (Parser α → Parser α) → Parser α} (h : ∀ left, (step (again left)).Ends idle) :
    (Parser.round step).Ends idle :=
  fun reading ts => h ts.length reading ts

theorem again (h : p.Ends idle) (before : Nat) : (Parser.again before p).Ends idle := h

theorem taken (h : p.Settles) {a : α} {rest : List Token} (hended : reading.IsEnded)
    (hok : p reading ts = .ok (a, rest)) : ∃ taken, ts = taken ++ rest ∧ Settled taken := by
  obtain ⟨taken, hts, htaken⟩ := h _ _ _ _ hended hok
  exact ⟨taken, hts, htaken.resolve_left And.left⟩

/-- What comes last decides. -/
theorem after (hf : ∀ a, (f a).Settles) : (p >>= f).Ends idle := by
  intro reading ts b rest hended hok
  obtain ⟨a, middle, ha, hb⟩ := bind_eq_ok.mp hok
  obtain ⟨taken, rfl, htaken⟩ := (hf a).taken hended hb
  obtain ⟨front, rfl⟩ := p.suffix ha
  exact ⟨front ++ taken, (append_assoc _ _ _).symm, .inr (htaken.append front)⟩

/-- A part that starts with a token of its own. -/
theorem accept_bind {k : TokenKind} {f : Bool → Parser α} (hsome : (f true).Settles)
    (hnone : (f false).Rests) : (accept k >>= f).Rests := by
  rw [accept_bind_eq]
  exact .bind (.bind (.peek _) fun _ => .pure _) fun _ => .ite (after fun _ => hsome) hnone

variable {reading : Reading} {ts rest : List Token}

/-- A line break that has been seen. -/
theorem advance_bind {f : Unit → Parser α} {a : α} (hf : (f ()).Rests) (hended : reading.IsEnded)
    (hkind : (ts.headD reading.ending.token).kind = .newline)
    (hok : (Parser.advance >>= f) reading ts = .ok (a, rest)) :
    ∃ taken, ts = taken ++ rest ∧ (idle ∧ taken = [] ∨ Settled taken) := by
  obtain ⟨t, hts, ht⟩ := eq_cons_of_kind (hended.ne TokenKind.noConfusion TokenKind.noConfusion) hkind
  obtain ⟨taken, htaken, hsettled⟩ := hf reading ts.tail a rest hended hok
  refine ⟨t :: taken, by rw [hts, htaken]; rfl, .inr ?_⟩
  rcases hsettled with ⟨-, rfl⟩ | hsettled
  · exact .singleton (.inl ht)
  · exact hsettled.append [t]

theorem newline : (expect .newline).Settles := by
  intro reading ts t rest hended hok
  obtain ⟨rfl, hkind⟩ := expect_eq_ok (hended.ne TokenKind.noConfusion TokenKind.noConfusion) hok
  exact ⟨[t], rfl, .inr (.singleton (.inl hkind))⟩

theorem headingEnd : Parser.headingEnd.Settles :=
  .after fun _ => newline.bind fun _ => .pure ()

theorem many (h : p.Settles) (more : Token → Bool) : (Parser.many more p).Rests := by
  refine .bounded fun rounds => ?_
  induction rounds with
  | zero => exact .pure []
  | succ rounds ih =>
    refine .round fun left => .bind (.peek _) fun t => .ite ?_ (.pure _)
    exact (h.bind fun _ => (ih.again left).bind fun _ => .pure _).rests

/-- A loop has more rounds than there are tokens, so it goes on as long as its condition holds. -/
theorem many_stops (h : p.Settles) {more : Token → Bool} {xs : List α} (hended : reading.IsEnded)
    (hok : Parser.many more p reading ts = .ok (xs, rest)) :
    more (rest.headD reading.ending.token) = false := by
  have hall : ∀ rounds ts xs, ts.length < rounds →
      manyWhile more p rounds reading ts = .ok (xs, rest) →
      more (rest.headD reading.ending.token) = false := by
    intro rounds
    induction rounds with
    | zero => exact fun ts xs hlength => absurd hlength (Nat.not_lt_zero _)
    | succ rounds ih =>
      intro ts xs hlength hok
      cases hmore : more (ts.headD reading.ending.token) with
      | false =>
        rw [manyWhile_of_not hmore] at hok
        cases hok
        exact hmore
      | true =>
        obtain ⟨x, middle, ys, hx, hys, -⟩ := (manyWhile_eq_ok hmore).mp hok
        obtain ⟨taken, rfl, htaken⟩ := h.taken hended hx
        have hpos := length_pos_iff.mpr htaken.ne_nil
        rw [length_append] at hlength
        exact ih middle ys (by omega) hys
  exact hall _ ts xs (Nat.lt_succ_self _) hok

/-- A level that is there starts and ends with a token of its own. -/
theorem indented (h : p.Settles) : (Parser.indented p).Rests := by
  intro reading ts xs rest hended hok
  obtain ⟨found, start, hfound, hbody⟩ := bind_eq_ok.mp hok
  rw [accept_eq] at hfound
  split at hfound
  · next hkind =>
    obtain ⟨t, hts, ht⟩ := eq_cons_of_kind (hended.ne TokenKind.noConfusion TokenKind.noConfusion) hkind
    cases hfound
    obtain ⟨items, middle, hitems, hbody⟩ := bind_eq_ok.mp hbody
    obtain ⟨u, later, hu, hpure⟩ := bind_eq_ok.mp hbody
    cases hpure
    obtain ⟨rfl, hdedent⟩ := expect_eq_ok (hended.ne TokenKind.noConfusion TokenKind.noConfusion) hu
    obtain ⟨taken, htaken, hsettled⟩ := h.many _ _ _ _ _ hended hitems
    refine ⟨t :: taken ++ [u], ?_, .inr ?_⟩
    · rw [hts, htaken, append_assoc]
      rfl
    · have htaken : Settled (t :: taken) := by
        rcases hsettled with ⟨-, rfl⟩ | hsettled
        · exact .singleton (.inr ht)
        · exact hsettled.append [t]
      exact htaken.dedent hdedent
  · cases hfound
    exact Ends.pure _ _ _ _ _ hended hbody

end Ends
end Parser

open Stencil.Parser

/-! ## Styles -/

theorem Property.parser_settles : Property.parser.Settles := by
  refine .after fun t => .ite ?_ (.fail _)
  exact .after fun _ => .after fun _ => .after fun _ => Ends.newline.bind fun _ => .pure _

theorem Rule.parser_settles : Rule.parser.Settles :=
  .after fun _ => .after fun _ => .after fun _ => Ends.newline.bind fun _ =>
    Property.parser_settles.indented.bind fun _ => .pure _

variable (position : Position)

theorem StyleBlock.parser_settles : (StyleBlock.parser position).Settles :=
  .after fun _ => Ends.headingEnd.bind fun _ =>
    Rule.parser_settles.indented.bind fun _ => .pure _

/-! ## Markup -/

namespace Statement

theorem textParser_settles : textParser.Settles :=
  .after fun _ => .after fun _ => Ends.newline.bind fun _ =>
    .bind (.split _) fun _ => .pure _

theorem outputParser_settles : outputParser.Settles :=
  .after fun _ => .after fun _ => .after fun _ => Ends.newline.bind fun _ => .pure _

theorem bindingParser_settles (make : Position → String → Expr → Statement) :
    (bindingParser make).Settles :=
  .after fun _ => .after fun _ => .after fun _ => .after fun _ => .after fun _ =>
    Ends.newline.bind fun _ => .pure _

theorem linkParser_settles : linkParser.Settles :=
  .after fun _ => .after fun _ => .after fun _ => Ends.newline.bind fun _ => .pure _

section Nested

variable {body : Place → Parser (List Statement)} (hbody : ∀ place, (body place).Rests)

include hbody

theorem elementParser_settles : (elementParser body).Settles := by
  refine .after fun p => .after fun t => ?_
  extract_lets named
  have hnamed : ∀ name, (named name).Settles := by
    refine fun name => .after fun classes => .after fun attributes => ?_
    intro reading ts s rest hended hok
    obtain ⟨k, middle, hlook, hok⟩ := bind_eq_ok.mp hok
    obtain ⟨hkind, rfl⟩ : (ts.headD reading.ending.token).kind = k ∧ ts = middle := by
      cases hlook
      exact ⟨rfl, rfl⟩
    split at hok
    · exact textParser_settles.bind (fun _ => .pure _) _ _ _ _ hended hok
    · exact Ends.advance_bind ((hbody _).bind fun _ => .pure _) hended hkind hok
    · exact Ends.fail _ _ _ _ _ hended hok
  refine .ite ?_ ?_
  · exact .after fun _ => .after hnamed
  · exact .after hnamed

theorem branchesFrom_settles (rounds : Nat) : (branchesFrom body (rounds + 1)).Settles := by
  have hrests : (branchesFrom body rounds).Rests := by
    cases rounds with
    | zero => exact .pure []
    | succ rounds => exact (branchesFrom_settles rounds).rests
  refine .round fun left => .after fun _ => .after fun condition => ?_
  refine Ends.headingEnd.bind fun _ => (hbody _).bind fun chosen => ?_
  refine .bind (.bind (.peek _) fun _ => .pure _) fun k => .ite ?_ (.pure _)
  exact (hrests.again left).bind fun _ => .pure _

theorem choiceParser_settles : (choiceParser body).Settles := by
  have hbranches : (bounded (branchesFrom body)).Settles := fun reading ts =>
    branchesFrom_settles hbody ts.length reading ts
  refine .after fun p => hbranches.bind fun branches => ?_
  refine Ends.accept_bind ?_ (.pure _)
  exact Ends.headingEnd.bind fun _ => (hbody _).bind fun _ => .pure _

theorem loopParser_settles : (loopParser body).Settles :=
  .after fun _ => .after fun _ => .after fun _ => .after fun _ => .after fun _ =>
    Ends.headingEnd.bind fun _ => (hbody _).bind fun _ => .pure _

theorem parser_settles (place : Place) : (parser body place).Settles := by
  refine .after fun k => ?_
  split
  case h_1 | h_2 => exact elementParser_settles hbody
  case h_3 => exact textParser_settles
  case h_4 => exact outputParser_settles
  case h_5 => exact choiceParser_settles hbody
  case h_6 => exact loopParser_settles hbody
  case h_7 => exact .ite (.fail _) (bindingParser_settles _)
  case h_8 => exact .ite (bindingParser_settles _) (.fail _)
  case h_9 => exact .ite linkParser_settles (.fail _)
  case h_10 => exact .fail _

end Nested

theorem bodyWithin_rests (depth : Nat) (place : Place) : (bodyWithin depth place).Rests := by
  induction depth generalizing place with
  | zero => exact .pure []
  | succ depth ih =>
    exact .round fun left => (parser_settles (fun inner => (ih inner).again left) place).indented

end Statement

theorem MarkupBlock.parser_settles : (MarkupBlock.parser position).Settles := by
  have hbody : (bounded fun depth => Statement.bodyWithin depth .block).Rests :=
    .bounded fun depth => Statement.bodyWithin_rests depth .block
  refine .after fun name => .after fun params => ?_
  have hevents : ∀ events, (do
      headingEnd
      let body ← bounded fun depth => Statement.bodyWithin depth .block
      return (⟨name.literal, params, events, body, position⟩ : MarkupBlock)).Settles :=
    fun events => Ends.headingEnd.bind fun _ => hbody.bind fun _ => .pure _
  refine .after fun found => .ite ?_ ?_
  · exact .after hevents
  · exact .after hevents

/-! ## Blocks -/

namespace Block

theorem importSource_settles : importSource.Settles :=
  .after fun _ => .after fun _ => Ends.newline.bind fun _ => .pure _

theorem importParser_settles : (importParser position).Settles := by
  refine .after fun found => .ite ?_ ?_
  · exact .after fun _ => .after fun _ => importSource_settles.bind fun _ => .pure _
  · exact .after fun name => importSource_settles.bind fun _ => .pure _

theorem parser_settles : Block.parser.Settles := by
  refine .after fun position => .after fun k => ?_
  split
  · exact .after fun _ => (StyleBlock.parser_settles _).bind fun _ => .pure _
  · exact .after fun _ => (MarkupBlock.parser_settles _).bind fun _ => .pure _
  · exact (MarkupBlock.parser_settles _).bind fun _ => .pure _
  · exact .after fun _ => importParser_settles _
  · exact .fail _

end Block

/-! ## Templates -/

/-- What is known of the tokens of a source that was read. -/
structure Template.Scanned (file source : String) (blocks : List Block) (ts : List Token)
    (e : Token) : Prop where
  scan : Scan.of file source = ⟨ts, .eof e⟩
  ending : e.kind = .eof
  tokens : ∀ t ∈ ts, t.kind ≠ .eof
  settled : ts = [] ∨ Settled ts
  blocks : many (·.kind ≠ .eof) Block.parser ⟨file, .eof e, Format.split⟩ ts = .ok (blocks, [])

variable {file source : String} {t : Template}

theorem Template.parser_of_read (h : Template.read file source = .ok t) :
    ∃ rest, many (·.kind ≠ .eof) Block.parser ⟨file, (Scan.of file source).ending, Format.split⟩
      (Scan.of file source).tokens = .ok (t.blocks, rest) := by
  rw [Template.read, Session.read] at h
  simp only [Session.start] at h
  split at h
  · next template rest heq =>
    cases h
    obtain ⟨position, _, hposition, hok⟩ := bind_eq_ok.mp heq
    cases hposition
    obtain ⟨blocks, later, hblocks, hpure⟩ := bind_eq_ok.mp hok
    cases hpure
    exact ⟨rest, hblocks⟩
  · cases h

theorem Scan.isEnded (file source : String) {split : String → List Segment} :
    Reading.IsEnded ⟨file, (Scan.of file source).ending, split⟩ := by
  unfold Reading.IsEnded
  rcases (Scan.ends_of file source).kinds.2 with ⟨e, he, hkind⟩ | ⟨e, fault, he, hkind⟩
  · exact .inl (he ▸ hkind)
  · exact .inr (he ▸ hkind)

/-- A source that was read has been scanned without a fault and read up to its end. -/
theorem Template.scanned_of_read (h : Template.read file source = .ok t) :
    ∃ ts e, Template.Scanned file source t.blocks ts e := by
  obtain ⟨rest, hblocks⟩ := parser_of_read h
  obtain ⟨htokens, hends⟩ := (Scan.ends_of file source).kinds
  have hended := @Scan.isEnded file source Format.split
  generalize hscan : Scan.of file source = scan at hblocks htokens hends hended
  obtain ⟨ts, ending⟩ := scan
  have hstops := Block.parser_settles.many_stops hended hblocks
  have hfront : (rest.headD ending.token).kind = .eof :=
    of_not_not (of_decide_eq_false hstops)
  have hrest : rest = [] := by
    cases rest with
    | nil => rfl
    | cons u rest =>
      have hsuffix := Parser.suffix _ hblocks
      exact absurd hfront (htokens u (hsuffix.mem mem_cons_self))
  subst hrest
  rcases hends with ⟨e, rfl, he⟩ | ⟨e, fault, rfl, he⟩
  · obtain ⟨taken, htaken, hsettled⟩ := Block.parser_settles.many _ _ _ _ _ hended hblocks
    obtain rfl : ts = taken := htaken.trans (append_nil _)
    exact ⟨ts, e, hscan, he, htokens, hsettled.imp_left And.right, hblocks⟩
  · exact absurd (he.symm.trans hfront) TokenKind.noConfusion

end Stencil
