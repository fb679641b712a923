import Stencil.Proofs.Markup.Reading

/-!
# Reading markup back

A template that is written and read again has the same blocks, apart from the places in them. A
statement is read from the tokens of its lines if what follows cannot belong to it, and a body from
what stands between the ends of a level.
-/
namespace Stencil

open Written (enclose identifier colon equals listed enclosed word)
open Stencil.Expr (Stops headKind)
open Stencil.Parser List Bool Stands

/-! ## Tokens of outlines -/

variable {ts : List Token} {words : List Written}

theorem Outlined.eq_nil (h : Outlined ts []) : ts = [] := by
  cases h
  rfl

theorem Nested.eq_nil {inner : List Token} (h : Nested inner []) : inner = [] := by
  cases h with
  | none => rfl
  | some _ hunder => exact absurd rfl hunder

/-- One line with what stands under it. -/
theorem Outlined.single {under : List Outline} (h : Outlined ts [.line words under]) :
    ∃ front newline inner, ts = front ++ newline :: inner ∧ Stands front words ∧
      newline.kind = .newline ∧ Nested inner under := by
  obtain ⟨front, newline, inner, rest, rfl, hfront, hnewline, hinner, hrest⟩ := h.cons
  rw [hrest.eq_nil, append_nil]
  exact ⟨front, newline, inner, rfl, hfront, hnewline, hinner⟩

/-- One line with nothing under it. -/
theorem Outlined.only (h : Outlined ts [.line words []]) :
    ∃ front newline, ts = front ++ [newline] ∧ Stands front words ∧ newline.kind = .newline := by
  obtain ⟨front, newline, inner, rfl, hfront, hnewline, hinner⟩ := h.single
  rw [hinner.eq_nil]
  exact ⟨front, newline, rfl, hfront, hnewline⟩

theorem Parser.Yields.headingEnd {r : Reading} {colon newline : Token}
    (hcolon : colon.kind = .colon) (hnewline : newline.kind = .newline)
    {Q : Unit → List Token → Prop} (h : Q () ts) :
    Parser.headingEnd.Yields r (colon :: newline :: ts) Q :=
  Yields.bind (.expect hcolon (.bind (.expect hnewline (.pure h))))

namespace Statement

/-! ## Statements on one line -/

section Lines

variable {r : Reading} (hr : r.split = Format.split) {front tail : List Token} {newline : Token}
  (hnewline : newline.kind = .newline) {value : Expr}

include hr hnewline

theorem yields_textParser {t : Token} {segments : List Segment}
    (h : segmentsWritable segments) (ht : t.kind = .string)
    (hliteral : t.literal = Literal.quote (formatText segments)) :
    textParser.Yields r (t :: newline :: tail) fun y rest =>
      y.unplaced = .text {} (unplacedSegments segments) ∧ rest = tail := by
  refine .bind (.here fun p => .bind (Expr.yields_stringValue ht hliteral ?_))
  refine .bind (.expect hnewline (.bind (.split (.pure ⟨?_, rfl⟩))))
  rw [unplaced, hr, split_formatText h]

theorem yields_outputParser (h : value.isWritable)
    (hfront : Stands front (equals :: .blank :: value.written 0)) :
    outputParser.Yields r (front ++ newline :: tail) fun y rest =>
      y.unplaced = .output {} value.unplaced ∧ rest = tail := by
  obtain ⟨sign, rest, rfl, -, -, hrest⟩ := hfront.cons
  refine .bind (.here fun p => .bind (.advance ?_))
  refine (Expr.reads hr h).bind hrest.blank (stops_cons hnewline .newline) fun x hx => ?_
  exact .bind (.expect hnewline (.pure ⟨congrArg (output {}) hx, rfl⟩))

theorem yields_bindingParser {k : Keyword} {name : String} (h : value.isWritable)
    (hfront : Stands front (writtenBinding k name value))
    (make : Position → String → Expr → Statement) :
    (bindingParser make).Yields r (front ++ newline :: tail) fun y rest =>
      (∃ p x, y = make p name x ∧ x.unplaced = value.unplaced) ∧ rest = tail := by
  obtain ⟨first, rest, rfl, -, -, hrest⟩ := hfront.cons
  obtain ⟨front, sign, back, rfl, hsign, hname, hback⟩ := hrest.blank.joined
  obtain ⟨t, rfl, ht, rfl⟩ := hname.single
  refine .bind (.here fun p => .bind (.advance ?_))
  refine .bind (.expect ht (.bind (.expect hsign ?_)))
  refine (Expr.reads hr h).bind hback (stops_cons hnewline .newline) fun x hx => ?_
  exact .bind (.expect hnewline (.pure ⟨⟨p, x, rfl, hx⟩, rfl⟩))

theorem yields_linkParser {links : List Link} (hne : links ≠ []) (h : ∀ x ∈ links, x.isWritable)
    (hfront : Stands front (word .link :: .blank :: listed (links.map Link.written))) :
    linkParser.Yields r (front ++ newline :: tail) fun y rest =>
      y.unplaced = .link {} (links.map Link.unplaced) ∧ rest = tail := by
  obtain ⟨first, rest, rfl, -, -, hrest⟩ := hfront.cons
  refine .bind (.here fun p => .bind (.advance (.bind ?_)))
  rw [commaList1]
  have hlist : (commaList (fun _ => true) Link.parser).Yields r (rest ++ newline :: tail)
      fun ys rest => ys.map Link.unplaced = links.map Link.unplaced ∧ rest = newline :: tail := by
    refine yields_commaList hrest.blank (fun x _ => opens_link x)
      (fun x hx => Link.reads hr (h x hx)) ⟨.comma, by simp⟩ ⟨stops_cons hnewline .newline, ?_⟩ ?_
      fun hnil => absurd hnil hne
    · simp [headKind_cons, hnewline]
    · simp [headKind_cons, hnewline]
  refine hlist.leaves fun found hfound => ?_
  exact .bind (.expect hnewline (.pure ⟨congrArg (link {}) hfound, rfl⟩))

end Lines

/-! ## Bodies -/

/-- The kind of the first token of a statement. -/
def frontKind : Statement → TokenKind
  | .element .. => .identifier
  | .text .. => .string
  | .output .. => .equals
  | .store .. => .keyword .store
  | .binding .. => .keyword .«let»
  | .link .. => .keyword .link
  | .choice .. => .keyword .«if»
  | .loop .. => .keyword .«for»

/-- The reader for statements of the same sort. -/
def reader (within : Place → Parser (List Statement)) : Statement → Parser Statement
  | .element .. => elementParser within
  | .text .. => textParser
  | .output .. => outputParser
  | .store .. => bindingParser .store
  | .binding .. => bindingParser .binding
  | .link .. => linkParser
  | .choice .. => choiceParser within
  | .loop .. => loopParser within

variable {s : Statement} {ts : List Token} {layout : Layout}

/-- The token in front tells the sort of a statement, where it may stand. -/
theorem yields_of_reader {r : Reading} {within : Place → Parser (List Statement)} {place : Place}
    (hplaced : s.isPlaced place) (hkind : headKind r ts = s.frontKind)
    {Q : Statement → List Token → Prop} (h : (s.reader within).Yields r ts Q) :
    (parser within place).Yields r ts Q := by
  refine .bind (.kind ?_)
  rw [headKind] at hkind
  cases s with
  | store p name value | link p links =>
    simp only [hkind, frontKind]
    rw [if_pos (of_decide_eq_true hplaced)]
    exact h
  | binding p name value =>
    simp only [hkind, frontKind]
    rw [if_neg (of_decide_eq_true hplaced)]
    exact h
  | element | text | output | choice | loop =>
    simp only [hkind, frontKind]
    exact h

/-- What may follow a statement without being read as a part of it. -/
def Follows (kind : TokenKind) : Prop :=
  kind ≠ .indent ∧ kind ≠ .keyword .«elif» ∧ kind ≠ .keyword .«else»

theorem follows_frontKind (s : Statement) : Follows s.frontKind := by
  cases s <;> simp [Follows, frontKind]

theorem outline_front (layout : Layout) (h : s.isWritable) : ∃ text words under os,
      s.outline layout = .line (.mark s.frontKind text :: words) under :: os := by
  cases s with
  | element p name classes attributes body =>
    rw [outline]
    split <;> exact ⟨_, _, _, _, rfl⟩
  | choice p branches otherwise =>
    cases branches with
    | nil => exact absurd rfl (isWritable_choice h).1
    | cons branch branches =>
      rw [outline_choice]
      exact ⟨_, _, _, _, rfl⟩
  | _ => exact ⟨_, _, _, _, rfl⟩

theorem exists_front (h : s.isWritable) (hts : Outlined ts (s.outline layout)) :
    ∃ t rest, ts = t :: rest ∧ t.kind = s.frontKind := by
  obtain ⟨text, words, under, os, houtline⟩ := outline_front layout h
  rw [houtline] at hts
  obtain ⟨front, newline, inner, rest, rfl, hfront, -, -, -⟩ := hts.cons
  obtain ⟨t, front, rfl, ht, -, -⟩ := hfront.cons
  exact ⟨t, _, rfl, ht⟩

/-- Only an empty body has no lines. -/
theorem eq_nil_of_outlineAll {body : List Statement} (h : bodyWritable body)
    (hnil : outlineAll layout body = []) : body = [] := by
  cases body with
  | nil => rfl
  | cons s body =>
    obtain ⟨text, words, under, os, houtline⟩ :=
      outline_front layout (and_eq_true_iff.mp h).1
    rw [outlineAll, houtline] at hnil
    cases hnil

section Bodies

variable (r : Reading) (layout : Layout)

/-- The reader of the bodies in a body. -/
def innerBody (before depth : Nat) (place : Place) : Parser (List Statement) :=
  again before (bodyWithin depth place)

/-- A statement is read from its tokens, with bodies that nest less deep than there are tokens. -/
def ReadsBack (s : Statement) : Prop :=
  ∀ before depth ts tail, Outlined ts (s.outline layout) → ts.length < depth →
    Follows (headKind r tail) →
      (s.reader (innerBody before depth)).Yields r (ts ++ tail) fun y rest =>
        y.unplaced = s.unplaced ∧ rest = tail

/-- The statements of a level are read up to its end. -/
def AllReadBack (place : Place) (body : List Statement) : Prop :=
  ∀ before depth rounds ts dedent tail, Outlined ts (outlineAll layout body) → ts.length < depth →
    ts.length < rounds → dedent.kind = .dedent →
      (manyWhile (·.kind ≠ .dedent) (parser (innerBody before depth) place) rounds).Yields r
        (ts ++ dedent :: tail) fun ys rest =>
          unplacedBody ys = unplacedBody body ∧ rest = dedent :: tail

/-- A body is read from what stands under a line. -/
def BodyReadsBack (place : Place) (body : List Statement) : Prop :=
  ∀ depth inner tail, Nested inner (outlineAll layout body) → inner.length < depth →
    headKind r tail ≠ .indent →
      (bodyWithin depth place).Yields r (inner ++ tail) fun ys rest =>
        unplacedBody ys = unplacedBody body ∧ rest = tail

variable {r layout} {place : Place}

theorem BodyReadsBack.inner {body : List Statement} (h : BodyReadsBack r layout place body)
    (before depth : Nat) {inner tail : List Token}
    (hinner : Nested inner (outlineAll layout body)) (hdepth : inner.length < depth)
    (htail : headKind r tail ≠ .indent) :
    (innerBody before depth place).Yields r (inner ++ tail) fun ys rest =>
      unplacedBody ys = unplacedBody body ∧ rest = tail :=
  (h depth inner tail hinner hdepth htail).again before

theorem AllReadBack.nil : AllReadBack r layout place [] := by
  intro before depth rounds ts dedent tail hts _ _ hdedent
  rw [hts.eq_nil, nil_append]
  refine .manyWhile_done ?_ ⟨rfl, rfl⟩ rounds
  simp [hdedent]

theorem AllReadBack.cons {s : Statement} {body : List Statement} (hs : s.isWritable)
    (hplaced : s.isPlaced place) (hbody : bodyWritable body)
    (hfirst : ReadsBack r layout s) (hlater : AllReadBack r layout place body) :
    AllReadBack r layout place (s :: body) := by
  intro before depth rounds ts dedent tail hts hdepth hrounds hdedent
  obtain ⟨front, back, rfl, hfront, hback⟩ := hts.split
  rw [length_append] at hdepth hrounds
  have hfollows : Follows (headKind r (back ++ dedent :: tail)) := by
    cases body with
    | nil =>
      rw [hback.eq_nil, nil_append, headKind_cons, hdedent]
      simp [Follows]
    | cons other body =>
      obtain ⟨middle, last, rfl, hmiddle, -⟩ := hback.split
      obtain ⟨t, rest, rfl, ht⟩ := exists_front (and_eq_true_iff.mp hbody).1 hmiddle
      rw [cons_append, cons_append, headKind_cons, ht]
      exact follows_frontKind other
  have hread := hfirst before depth front (back ++ dedent :: tail) hfront (by omega) hfollows
  obtain ⟨t, rest, rfl, ht⟩ := exists_front hs hfront
  cases rounds with
  | zero => omega
  | succ rounds =>
    rw [append_assoc]
    rw [length_cons] at hrounds
    have hkind : headKind r (t :: (rest ++ (back ++ dedent :: tail))) = s.frontKind := ht
    refine .manyWhile_cons ?_ (yields_of_reader hplaced hkind (hread.weaken ?_))
    · rw [ht]
      cases s <;> rfl
    · rintro y rest ⟨hy, rfl⟩
      refine (hlater before depth rounds back dedent tail hback (by omega) (by omega)
        hdedent).leaves ?_
      rintro ys hys
      exact ⟨by rw [unplacedBody, hy, hys, unplacedBody], rfl⟩

theorem AllReadBack.nested {body : List Statement} (h : bodyWritable body)
    (hall : AllReadBack r layout place body) : BodyReadsBack r layout place body := by
  intro depth inner tail hinner hdepth htail
  cases depth with
  | zero => cases hdepth
  | succ depth =>
    generalize hunder : outlineAll layout body = under at hinner
    cases hinner with
    | none =>
      rw [eq_nil_of_outlineAll h hunder]
      exact .round (.bind (.accept_other htail (.pure ⟨rfl, rfl⟩)))
    | @some ts indent dedent _ hindent _ hts hdedent =>
      subst hunder
      simp only [length_cons, length_append] at hdepth
      rw [cons_append, append_assoc]
      refine .round (.bind (.accept hindent (.bind ?_)))
      refine .bounded_append fun rounds hrounds => ?_
      refine (hall _ depth rounds ts dedent tail hts (by omega) hrounds hdedent).leaves ?_
      rintro ys hys
      exact .bind (.expect hdedent (.pure ⟨hys, rfl⟩))

end Bodies

/-! ## Statements with bodies -/

section Nested

variable {r : Reading} (hr : r.split = Format.split) {layout : Layout} {place : Place}
  {name : String} {classes : List ClassClause} {attributes : List (String × Expr)}
  {ts tail : List Token} {p : Position} {body : List Statement} {condition : Expr}
  {branches : List (Expr × List Statement)} {otherwise : Option (List Statement)}

include hr

/-- The line of an element, and a body that is read from a text on the line or from what stands
under it. -/
theorem yields_elementParser (hclasses : classes.all ClassClause.isWritable)
    (hattributes : attributes.all attributeWritable)
    (hts : Stands ts (writtenElement name classes attributes))
    {within : Place → Parser (List Statement)} {P : List Statement → List Token → Prop}
    (hbody : headKind r tail = .string ∧ textParser.Yields r tail (fun s rest => P [s] rest) ∨
      headKind r tail = .newline ∧ (within .element).Yields r tail.tail P) :
    (elementParser within).Yields r (ts ++ tail) fun y rest => ∃ body,
      y.unplaced = .element {} name (classes.map ClassClause.unplaced)
        (attributes.map unplacedAttribute) (unplacedBody body) ∧ P body rest := by
  obtain ⟨t, rest, rfl, ht, rfl, hrest⟩ := hts.cons
  obtain ⟨front, back, rfl, hfront, hback⟩ := append hrest
  have hsquare : headKind r tail ≠ .opening .square := by
    rcases hbody with ⟨hkind, -⟩ | ⟨hkind, -⟩ <;> simp [hkind]
  have hends : (headKind r (back ++ tail)).isNamed = false ∧
      headKind r (back ++ tail) ≠ .question ∧ headKind r (back ++ tail) ≠ .dot := by
    cases attributes with
    | nil =>
      rw [nil hback, nil_append]
      rcases hbody with ⟨hkind, -⟩ | ⟨hkind, -⟩ <;> simp [hkind, TokenKind.isNamed]
    | cons a attributes =>
      obtain ⟨first, middle, last, rfl, hfirst, -, -⟩ := enclose hback
      rw [cons_append, headKind_cons, hfirst]
      simp [TokenKind.isNamed]
  refine .bind (.here fun p => .bind (.current ?_))
  rw [cons_append, headD_cons, if_pos ht, append_assoc]
  refine .bind (.advance (.bind (.pure ?_)))
  refine (reads_classes hr (all_eq_true.mp hclasses)).bind hfront hends fun cs hcs => ?_
  refine (reads_attributes hr (all_eq_true.mp hattributes)).bind hback hsquare
    fun as has => .bind (.kind ?_)
  rcases hbody with ⟨hkind, htext⟩ | ⟨hkind, hunder⟩
  · rw [headKind] at hkind
    simp only [hkind]
    refine .bind (htext.weaken fun s rest hs => .pure ⟨[s], ?_, hs⟩)
    rw [unplaced, hcs, has]
  · rw [headKind] at hkind
    simp only [hkind]
    refine .bind (.advance (.bind (hunder.weaken fun body rest hb => ?_)))
    exact .pure ⟨body, by rw [unplaced, hcs, has], hb⟩

theorem ReadsBack.element (h : (Statement.element p name classes attributes body).isWritable)
    (hbody : BodyReadsBack r layout .element body) :
    ReadsBack r layout (.element p name classes attributes body) := by
  intro before depth ts tail hts hdepth htail
  simp only [isWritable, and_eq_true] at h
  obtain ⟨⟨⟨-, hclasses⟩, hattributes⟩, hwritable⟩ := h
  -- The body is the same whether it is a text on the line or stands under it.
  have hsame : ∀ (y : Statement) found, unplacedBody found = unplacedBody body →
      y.unplaced = .element {} name (classes.map ClassClause.unplaced)
        (attributes.map unplacedAttribute) (unplacedBody found) →
      y.unplaced = (Statement.element p name classes attributes body).unplaced := by
    intro y found hfound hy
    rw [hy, hfound, unplaced]
  rw [outline] at hts
  split at hts
  · next segments hinline =>
    obtain ⟨q, rfl⟩ := layout.inlineText?_eq_some hinline
    obtain ⟨front, newline, rfl, hfront, hnewline⟩ := hts.only
    obtain ⟨head, back, rfl, hhead, hback⟩ := append hfront
    obtain ⟨t, rfl, ht, hliteral⟩ := hback.blank.single
    have hsegments := (and_eq_true_iff.mp (and_eq_true_iff.mp hwritable).1).1
    have htext : textParser.Yields r (t :: newline :: tail) fun s rest =>
        unplacedBody [s] = unplacedBody [.text q segments] ∧ rest = tail := by
      refine (yields_textParser hr hnewline hsegments ht hliteral).leaves fun s hs => ?_
      exact ⟨congrArg (· :: []) hs, rfl⟩
    rw [append_assoc, append_assoc]
    have hkind' : headKind r (t :: newline :: tail) = .string := ht
    refine (yields_elementParser (P := fun b rest => unplacedBody b = _ ∧ rest = tail) hr hclasses
      hattributes hhead (.inl ⟨hkind', htext⟩)).weaken ?_
    rintro y rest ⟨found, hy, hfound, rfl⟩
    exact ⟨hsame y found hfound hy, rfl⟩
  · obtain ⟨front, newline, inner, rfl, hfront, hnewline, hinner⟩ := hts.single
    simp only [length_append, length_cons] at hdepth
    have hunder := hbody.inner before depth hinner (by omega) htail.1
    rw [append_assoc, cons_append]
    have hkind' : headKind r (newline :: (inner ++ tail)) = .newline := hnewline
    refine (yields_elementParser hr hclasses hattributes hfront (.inr ⟨hkind', hunder⟩)).weaken ?_
    rintro y rest ⟨found, hy, hfound, rfl⟩
    exact ⟨hsame y found hfound hy, rfl⟩

/-- The heading of a branch and its body. -/
theorem yields_branch {k : Keyword} (hcondition : condition.isWritable)
    (hbody : BodyReadsBack r layout .branch body) {inner : List Token} {newline : Token}
    (hts : Stands ts (writtenBranch k condition)) (hnewline : newline.kind = .newline)
    (hinner : Nested inner (outlineAll layout body)) {before depth : Nat}
    (hdepth : inner.length < depth)
    (htail : headKind r tail ≠ .indent) {α : Type} {f : Expr → List Statement → Parser α}
    {Q : α → List Token → Prop}
    (hf : ∀ x ys, x.unplaced = condition.unplaced → unplacedBody ys = unplacedBody body →
      (f x ys).Yields r tail Q) :
    (do
      advance
      let x ← Expr.parser
      headingEnd
      let ys ← innerBody before depth .branch
      f x ys).Yields r (ts ++ newline :: (inner ++ tail)) Q := by
  obtain ⟨first, rest, rfl, -, -, hrest⟩ := hts.cons
  obtain ⟨front, back, rfl, hfront, hback⟩ := append hrest.blank
  obtain ⟨colon, rfl, hcolon, -⟩ := hback.single
  refine .bind (.advance ?_)
  rw [cons_append, tail_cons, append_assoc]
  refine (Expr.reads hr hcondition).bind hfront (stops_cons hcolon .colon) fun x hx => ?_
  refine .bind (Yields.headingEnd hcolon hnewline (.bind ?_))
  refine (hbody.inner before depth hinner hdepth htail).leaves fun ys hys => ?_
  exact hf x ys hx hys

theorem ReadsBack.loop {items : Expr} (h : (Statement.loop p name items body).isWritable)
    (hbody : BodyReadsBack r layout .branch body) :
    ReadsBack r layout (.loop p name items body) := by
  intro before depth ts tail hts hdepth htail
  simp only [isWritable, and_eq_true] at h
  obtain ⟨words, newline, inner, rfl, hwords, hnewline, hinner⟩ := hts.single
  obtain ⟨first, rest, rfl, -, -, hrest⟩ := hwords.cons
  obtain ⟨line, back, rfl, hline, hback⟩ := append hrest.blank
  obtain ⟨colon, rfl, hcolon, -⟩ := hback.single
  obtain ⟨front, middle, last, rfl, hmiddle, hfront, hlast⟩ := hline.joined
  obtain ⟨t, rfl, ht, rfl⟩ := hfront.single
  simp only [cons_append, append_assoc, nil_append, length_cons, length_append] at hdepth ⊢
  refine .bind (.here fun q => .bind (.advance ?_))
  refine .bind (.expect ht (.bind (.expect hmiddle ?_)))
  refine (Expr.reads hr h.1.2).bind hlast (stops_cons hcolon .colon) fun x hx => ?_
  refine .bind (Yields.headingEnd hcolon hnewline (.bind ?_))
  refine (hbody.inner before depth hinner (by omega) htail.1).leaves fun ys hys => ?_
  exact .pure ⟨by rw [unplaced, hx, hys, unplaced], rfl⟩

/-- Branches are read up to what starts no other one. -/
def BranchesReadBack (r : Reading) (layout : Layout) (branches : List (Expr × List Statement)) :
    Prop :=
  ∀ k before depth rounds ts tail, Outlined ts (outlineBranches layout k branches) → ts.length < depth →
    ts.length < rounds → headKind r tail ≠ .indent → headKind r tail ≠ .keyword .«elif» →
      (branchesFrom (innerBody before depth) rounds).Yields r (ts ++ tail) fun ys rest =>
        unplacedBranches ys = unplacedBranches branches ∧ rest = tail

theorem BranchesReadBack.last (hcondition : condition.isWritable)
    (hbody : BodyReadsBack r layout .branch body) :
    BranchesReadBack r layout [(condition, body)] := by
  intro k before depth rounds ts tail hts hdepth hrounds hindent helif
  obtain ⟨front, newline, inner, rfl, hfront, hnewline, hinner⟩ := hts.single
  simp only [length_append, length_cons] at hdepth hrounds
  cases rounds with
  | zero => cases hrounds
  | succ rounds =>
    rw [append_assoc, cons_append]
    refine .round (yields_branch hr hcondition hbody hfront hnewline hinner (by omega) hindent
      fun x ys hx hys => .bind (.kind ?_))
    rw [headKind] at helif
    rw [if_neg helif]
    exact .pure ⟨by rw [unplacedBranches, hx, hys]; rfl, rfl⟩

theorem BranchesReadBack.cons {branch : Expr × List Statement}
    (hcondition : condition.isWritable) (hbody : BodyReadsBack r layout .branch body)
    (hlater : BranchesReadBack r layout (branch :: branches)) :
    BranchesReadBack r layout ((condition, body) :: branch :: branches) := by
  intro k before depth rounds ts tail hts hdepth hrounds hindent helif
  obtain ⟨front, newline, inner, later, rfl, hfront, hnewline, hinner, hrest⟩ := hts.cons
  simp only [length_append, length_cons] at hdepth hrounds
  obtain ⟨x, y⟩ := branch
  have hkind : headKind r (later ++ tail) = .keyword .«elif» := by
    obtain ⟨words, _, _, _, rfl, hwords, -, -, -⟩ := hrest.cons
    obtain ⟨t, _, rfl, ht, -, -⟩ := hwords.cons
    exact ht
  cases rounds with
  | zero => cases hrounds
  | succ rounds =>
    rw [append_assoc, cons_append, append_assoc]
    refine .round (yields_branch hr hcondition hbody hfront hnewline hinner (by omega)
      (by rw [hkind]; exact TokenKind.noConfusion) fun x ys hx hys => .bind (.kind ?_))
    rw [headKind] at hkind
    rw [if_pos hkind]
    refine .bind (((hlater .«elif» before depth rounds later tail hrest (by omega) (by omega) hindent
      helif).again _).leaves fun zs hzs => ?_)
    exact .pure ⟨by rw [unplacedBranches, hx, hys, hzs, ← unplacedBranches], rfl⟩

omit hr in
theorem ReadsBack.choice (h : (Statement.choice p branches otherwise).isWritable)
    (hbranches : BranchesReadBack r layout branches)
    (hotherwise : ∀ body, otherwise = some body → BodyReadsBack r layout .branch body) :
    ReadsBack r layout (.choice p branches otherwise) := by
  intro before depth ts tail hts hdepth htail
  rw [outline_choice] at hts
  obtain ⟨front, back, rfl, hfront, hback⟩ := hts.split
  rw [length_append] at hdepth
  rw [append_assoc]
  refine .bind (.here fun q => .bind ?_)
  refine .bounded_append fun rounds hrounds => ?_
  cases otherwise with
  | none =>
    rw [hback.eq_nil, nil_append]
    refine (hbranches _ before depth rounds front tail hfront (by omega) hrounds htail.1
      htail.2.1).leaves fun ys hys => ?_
    refine .bind (.accept_other htail.2.2 (.pure ⟨?_, rfl⟩))
    rw [unplaced, hys, unplaced]
  | some body =>
    obtain ⟨words, newline, inner, rfl, hwords, hnewline, hinner⟩ := Outlined.single hback
    obtain ⟨first, rest, rfl, hfirst, -, hrest⟩ := hwords.cons
    obtain ⟨colon, rfl, hcolon, -⟩ := hrest.single
    simp only [length_append, length_cons] at hdepth
    simp only [cons_append, nil_append]
    have helse : headKind r (first :: colon :: newline :: (inner ++ tail)) = .keyword .«else» :=
      hfirst
    have hread := hbranches _ before depth rounds front _ hfront (by omega) hrounds
      (by rw [helse]; exact TokenKind.noConfusion) (by rw [helse]; decide)
    refine hread.leaves fun ys hys => ?_
    refine .bind (.accept hfirst (.bind ?_))
    refine Yields.headingEnd hcolon hnewline (.bind ?_)
    refine ((hotherwise body rfl).inner before depth hinner (by omega) htail.1).leaves ?_
    intro zs hzs
    exact .pure ⟨by rw [unplaced, hys, hzs, unplaced], rfl⟩

omit hr in
theorem isPlaced_choice (h : (Statement.choice p branches otherwise).isPlaced place) :
    branchesPlaced branches ∧ otherwise.all (allPlaced .branch) := by
  cases otherwise with
  | none => exact ⟨(and_eq_true_iff.mp h).1, rfl⟩
  | some body => exact and_eq_true_iff.mp h

end Nested

mutual

theorem reads_back {r : Reading} (hr : r.split = Format.split) (layout : Layout)
    {place : Place} (s : Statement) (h : s.isWritable)
    (hplaced : s.isPlaced place) : ReadsBack r layout s := by
  cases s with
  | element p name classes attributes body =>
    have hbody := (and_eq_true_iff.mp h).2
    exact .element hr h ((all_read_back hr layout body hbody hplaced).nested hbody)
  | text p segments =>
    intro before depth ts tail hts _ _
    obtain ⟨front, newline, rfl, hfront, hnewline⟩ := hts.only
    rw [append_assoc]
    obtain ⟨t, rfl, ht, hliteral⟩ := hfront.single
    exact yields_textParser hr hnewline (and_eq_true_iff.mp h).1 ht hliteral
  | output p value =>
    intro before depth ts tail hts _ _
    obtain ⟨front, newline, rfl, hfront, hnewline⟩ := hts.only
    rw [append_assoc]
    exact yields_outputParser hr hnewline h hfront
  | store p name value =>
    intro before depth ts tail hts _ _
    obtain ⟨front, newline, rfl, hfront, hnewline⟩ := hts.only
    rw [append_assoc]
    have hvalue := (and_eq_true_iff.mp h).2
    refine (yields_bindingParser hr hnewline hvalue hfront .store).leaves ?_
    rintro y ⟨q, x, rfl, hx⟩
    exact ⟨congrArg (store {} name) hx, rfl⟩
  | binding p name value =>
    intro before depth ts tail hts _ _
    obtain ⟨front, newline, rfl, hfront, hnewline⟩ := hts.only
    rw [append_assoc]
    have hvalue := (and_eq_true_iff.mp h).2
    refine (yields_bindingParser hr hnewline hvalue hfront .binding).leaves ?_
    rintro y ⟨q, x, rfl, hx⟩
    exact ⟨congrArg (binding {} name) hx, rfl⟩
  | link p links =>
    intro before depth ts tail hts _ _
    obtain ⟨front, newline, rfl, hfront, hnewline⟩ := hts.only
    rw [append_assoc]
    obtain ⟨hne, hlinks⟩ := and_eq_true_iff.mp h
    exact yields_linkParser hr hnewline (by simpa using hne) (all_eq_true.mp hlinks) hfront
  | choice p branches otherwise =>
    obtain ⟨hne, hbranches, hlast⟩ := isWritable_choice h
    obtain ⟨hbranchesPlaced, hlastPlaced⟩ := isPlaced_choice hplaced
    refine .choice h (branches_read_back hr layout branches hne hbranches hbranchesPlaced) ?_
    cases otherwise with
    | none =>
      intro body hbody
      cases hbody
    | some last =>
      intro body hbody
      cases hbody
      exact (all_read_back hr layout last hlast hlastPlaced).nested hlast
  | loop p name items body =>
    have hbody := (and_eq_true_iff.mp h).2
    exact .loop hr h ((all_read_back hr layout body hbody hplaced).nested hbody)

theorem all_read_back {r : Reading} (hr : r.split = Format.split) (layout : Layout)
    {place : Place} (body : List Statement) (h : bodyWritable body)
    (hplaced : allPlaced place body) :
    AllReadBack r layout place body := by
  cases body with
  | nil => exact .nil
  | cons s rest =>
    obtain ⟨hs, hrest⟩ := and_eq_true_iff.mp h
    obtain ⟨hsPlaced, hrestPlaced⟩ := and_eq_true_iff.mp hplaced
    exact .cons hs hsPlaced hrest (reads_back hr layout s hs hsPlaced)
      (all_read_back hr layout rest hrest hrestPlaced)

theorem branches_read_back {r : Reading} (hr : r.split = Format.split) (layout : Layout)
    (branches : List (Expr × List Statement)) (hne : branches ≠ [])
    (h : branchesWritable branches) (hplaced : branchesPlaced branches) :
    BranchesReadBack r layout branches := by
  cases branches with
  | nil => exact absurd rfl hne
  | cons branch rest =>
    obtain ⟨condition, body⟩ := branch
    simp only [branchesWritable, and_eq_true] at h
    obtain ⟨hbodyPlaced, hrestPlaced⟩ := and_eq_true_iff.mp hplaced
    have hbody := (all_read_back hr layout body h.1.2 hbodyPlaced).nested h.1.2
    by_cases hrest : rest = []
    · subst hrest
      exact .last hr h.1.1 hbody
    · obtain ⟨other, later, hcons⟩ := exists_cons_of_ne_nil hrest
      have hlater := branches_read_back hr layout rest hrest h.2 hrestPlaced
      rw [hcons] at hlater ⊢
      exact .cons hr h.1.1 hbody hlater

end

end Statement

/-! ## Blocks -/

section Blocks

variable {r : Reading} (hr : r.split = Format.split) {layout : Layout} {ts tail : List Token}
  {b : Block}

include hr

omit hr in
theorem yields_events {events : List String} (hne : events ≠ [])
    (hts : Stands ts (listed (events.map fun e => [identifier e])))
    (htail : headKind r tail = .colon) :
    (commaList1 do return (← expect .identifier).literal).Yields r (ts ++ tail) fun found rest =>
      found = events ∧ rest = tail := by
  have hitem : ∀ e ∈ events, Reads (do return (← expect .identifier).literal) r (fun _ => True)
      [identifier e] fun found => id found = id e := by
    intro e _ ts tail hts _
    obtain ⟨t, rfl, ht, rfl⟩ := hts.single
    exact .bind (.expect ht (.pure ⟨rfl, rfl⟩))
  rw [commaList1]
  refine (yields_commaList hts (fun e _ => Opens.mark fun _ _ _ => rfl) hitem trivial trivial
    (by simp [htail]) fun hnil => absurd hnil hne).leaves fun found hfound => ?_
  rw [map_id, map_id] at hfound
  exact ⟨hfound, rfl⟩

/-- What follows the word `html`, if the block starts with it. -/
theorem MarkupBlock.reads_back {b : MarkupBlock} (h : b.isWritable)
    {front middle inner : List Token} {colon newline : Token}
    (hfront : Stands front (identifier b.name :: enclosed .paren (b.params.map Param.written)))
    (hmiddle : Stands middle (if b.events.isEmpty then []
      else [.blank, word .events, .blank] ++ listed (b.events.map fun e => [identifier e])))
    (hcolon : colon.kind = .colon) (hnewline : newline.kind = .newline)
    (hinner : Nested inner (outlineAll layout b.body)) (htail : headKind r tail ≠ .indent)
    (position : Position) :
    (MarkupBlock.parser position).Yields r
      (front ++ (middle ++ colon :: newline :: (inner ++ tail))) fun y rest =>
        y.unplaced = b.unplaced ∧ rest = tail := by
  obtain ⟨name, params, events, body, place⟩ := b
  simp only [MarkupBlock.isWritable, and_eq_true] at h
  obtain ⟨⟨-, hbody⟩, hplaced⟩ := h
  have hread := (Statement.all_read_back hr layout body hbody hplaced).nested hbody
  obtain ⟨t, rest, rfl, ht, rfl, hrest⟩ := hfront.cons
  -- The heading ends after the events, and the body is what stands under it.
  have hend : ∀ ps : List Param, ps.map Param.unplaced = params.map Param.unplaced →
      Yields (do
        headingEnd
        let body ← bounded fun depth => Statement.bodyWithin depth .block
        return MarkupBlock.mk t.literal ps events body position) r
          (colon :: newline :: (inner ++ tail)) fun y rest =>
            y.unplaced = (MarkupBlock.mk t.literal params events body place).unplaced ∧
              rest = tail := by
    intro ps hps
    refine .bind (Yields.headingEnd hcolon hnewline (.bind ?_))
    refine .bounded_append fun depth hdepth => ?_
    refine (hread depth inner tail hinner hdepth htail).leaves fun ys hys => ?_
    refine .pure ⟨?_, rfl⟩
    simp only [MarkupBlock.unplaced, hps, hys]
  refine .bind (.expect ht ?_)
  by_cases hempty : events.isEmpty
  · rw [if_pos hempty] at hmiddle
    obtain rfl := isEmpty_iff.mp hempty
    rw [hmiddle.nil, nil_append]
    refine (reads_params r params).bind hrest ?_ fun ps hps => ?_
    · simp [headKind_cons, hcolon]
    · refine .bind (.accept_other ?_ (.bind (.pure (hend ps hps))))
      simp [hcolon]
  · rw [if_neg hempty] at hmiddle
    obtain ⟨first, later, rfl, hfirst, -, hlater⟩ := hmiddle.blank.cons
    refine (reads_params r params).bind hrest ?_ fun ps hps => ?_
    · simp [headKind_cons, hfirst]
    · refine .bind (.accept hfirst (.bind ?_))
      have hkind : headKind r (colon :: newline :: (inner ++ tail)) = .colon := hcolon
      refine (yields_events (by simpa using hempty) hlater.blank hkind).leaves ?_
      rintro found rfl
      exact hend ps hps

omit hr in
theorem Block.exists_front (h : b.isWritable) (hts : Outlined ts (b.outline layout)) :
    ∃ t rest, ts = t :: rest ∧ t.kind ≠ .indent ∧ t.kind ≠ .eof := by
  have hmark : ∃ kind text words under,
      b.outline layout = [.line (.mark kind text :: words) under] ∧
        kind ≠ .indent ∧ kind ≠ .eof := by
    cases b with
    | style b => cases h
    | markup b =>
      rw [Block.outline, MarkupBlock.written]
      split
      · exact ⟨.keyword .html, _, _, _, rfl, by simp⟩
      · exact ⟨.identifier, _, _, _, rfl, by simp⟩
    | importModule name source p => exact ⟨.keyword .«import», _, _, _, rfl, by simp⟩
    | importNames names source p => exact ⟨.keyword .«import», _, _, _, rfl, by simp⟩
  obtain ⟨kind, text, words, under, houtline, hkind⟩ := hmark
  rw [houtline] at hts
  obtain ⟨front, newline, inner, rfl, hfront, -, -⟩ := hts.single
  obtain ⟨t, rest, rfl, rfl, -, -⟩ := hfront.cons
  exact ⟨t, _, rfl, hkind⟩

theorem Block.reads_back (h : b.isWritable) (hts : Outlined ts (b.outline layout))
    (htail : headKind r tail ≠ .indent) :
    Block.parser.Yields r (ts ++ tail) fun y rest => y.unplaced = b.unplaced ∧ rest = tail := by
  cases b with
  | style b => cases h
  | markup b =>
    obtain ⟨words, newline, inner, rfl, hwords, hnewline, hinner⟩ := hts.single
    obtain ⟨most, last, rfl, hmost, hlast⟩ := append hwords
    obtain ⟨colon, rfl, hcolon, -⟩ := hlast.single
    obtain ⟨front, middle, rfl, hfront, hmiddle⟩ := append hmost
    obtain ⟨lead, front, rfl, hlead, hfront⟩ := append hfront
    have hread := MarkupBlock.reads_back hr h hfront hmiddle hcolon hnewline hinner htail
    simp only [append_assoc, cons_append, nil_append]
    refine .bind (.here fun position => .bind (.kind ?_))
    split at hlead
    · obtain ⟨t, rest, rfl, ht, -, hrest⟩ := cons hlead
      rw [hrest.blank.nil]
      simp only [cons_append, nil_append, headD_cons, ht]
      refine .bind (.advance (.bind ((hread position).leaves fun y hy => ?_)))
      exact .pure ⟨congrArg Block.markup hy, rfl⟩
    · obtain ⟨t, rest, rfl, ht, -, -⟩ := hfront.cons
      rw [nil hlead]
      simp only [cons_append, nil_append, headD_cons, ht]
      refine .bind ((hread position).leaves fun y hy => ?_)
      exact .pure ⟨congrArg Block.markup hy, rfl⟩
  | importModule name source p =>
    obtain ⟨words, newline, rfl, hwords, hnewline⟩ := hts.only
    obtain ⟨first, rest, rfl, hfirst, -, hrest⟩ := hwords.cons
    obtain ⟨front, middle, back, rfl, hmiddle, hfront, hback⟩ := hrest.blank.joined
    obtain ⟨t, rfl, ht, rfl⟩ := hfront.single
    obtain ⟨u, rfl, hu, hliteral⟩ := hback.single
    refine .bind (.here fun position => .bind (.kind ?_))
    simp only [cons_append, nil_append, headD_cons, hfirst]
    refine .bind (.advance (.bind (.accept_other ?_ ?_)))
    · simp [ht]
    · refine .bind (.expect ht (.bind ?_))
      exact yields_importSource hmiddle hu hliteral hnewline (.pure ⟨rfl, rfl⟩)
  | importNames names source p =>
    obtain ⟨words, newline, rfl, hwords, hnewline⟩ := hts.only
    obtain ⟨first, rest, rfl, hfirst, -, hrest⟩ := hwords.cons
    obtain ⟨front, middle, back, rfl, hmiddle, hfront, hback⟩ := hrest.blank.joined
    obtain ⟨brace, inside, last, rfl, hbrace, hlast, hinside⟩ := hfront.enclose
    obtain ⟨u, rfl, hu, hliteral⟩ := hback.single
    refine .bind (.here fun position => .bind (.kind ?_))
    simp only [append_assoc, cons_append, nil_append, headD_cons, hfirst]
    refine .bind (.advance (.bind (.accept hbrace ?_)))
    refine yields_closedList (u := id) hinside hlast (fun n _ => n.opens)
      (fun n _ => ImportName.reads r n) (by simp) (by simp) (fun t ht => by simp [ht])
      fun found hfound => ?_
    refine .bind (yields_importSource hmiddle hu hliteral hnewline (.pure ⟨?_, rfl⟩))
    rw [map_id, map_id] at hfound
    rw [hfound]
    rfl

theorem yields_blocks {blocks : List Block} (h : ∀ b ∈ blocks, b.isWritable)
    (hts : Outlined ts (blocks.flatMap (Block.outline layout))) (hend : headKind r [] = .eof)
    {rounds : Nat} (hrounds : ts.length < rounds) :
    (manyWhile (·.kind ≠ .eof) Block.parser rounds).Yields r ts fun found _ =>
      found.map Block.unplaced = blocks.map Block.unplaced := by
  induction blocks generalizing ts rounds with
  | nil =>
    rw [Outlined.eq_nil hts]
    refine .manyWhile_done ?_ ?_ rounds
    · exact decide_eq_false (not_not_intro hend)
    · rfl
  | cons b blocks ih =>
    obtain ⟨hb, hblocks⟩ := forall_mem_cons.mp h
    obtain ⟨front, back, rfl, hfront, hback⟩ := Outlined.split hts
    have hnext : headKind r back ≠ .indent := by
      cases blocks with
      | nil =>
        rw [Outlined.eq_nil hback, hend]
        exact TokenKind.noConfusion
      | cons other blocks =>
        obtain ⟨middle, last, rfl, hmiddle, -⟩ := Outlined.split hback
        obtain ⟨t, rest, rfl, hindent, -⟩ :=
          Block.exists_front (hblocks other mem_cons_self) hmiddle
        exact hindent
    have hread := Block.reads_back hr hb hfront hnext
    obtain ⟨t, rest, rfl, -, heof⟩ := Block.exists_front hb hfront
    simp only [length_append, length_cons] at hrounds
    cases rounds with
    | zero => cases hrounds
    | succ rounds =>
      refine .manyWhile_cons (decide_eq_true heof) (hread.leaves fun y hy => ?_)
      refine (ih hblocks hback (by omega)).weaken ?_
      intro found _ hfound
      rw [map_cons, hy, hfound, map_cons]

end Blocks

/-- A template that is written and read again has the same blocks, their places aside. -/
theorem Template.blocks_read_back (layout : Layout) (blocks : List Block)
    (h : blocks.all Block.isWritable = true) (file : String) :
    (Template.read file (layout.text blocks)).map (fun t => t.blocks.map Block.unplaced) =
      .ok (blocks.map Block.unplaced) := by
  have hwritable := List.all_eq_true.mp h
  obtain ⟨ts, eof, hscan, heof, hts⟩ :=
    Outline.scan_charsAll (scannable_blocks layout hwritable) layout.width_pos file
  have hblocks : Template.parser.Yields ⟨file, .eof eof, Format.split⟩ ts fun t _ =>
      t.blocks.map Block.unplaced = blocks.map Block.unplaced := by
    have hend : headKind ⟨file, .eof eof, Format.split⟩ [] = .eof := heof
    refine .bind (.here fun position => .bind (.bounded ?_))
    refine (yields_blocks rfl hwritable hts hend (Nat.lt_succ_self _)).weaken ?_
    intro found rest hfound
    exact .pure hfound
  obtain ⟨t, rest, hread, ht⟩ := hblocks
  simp only [Template.read, Session.read, Session.start, Layout.text, hscan, hread]
  rw [Except.map, ht]

/-- A block of every sort, and in the last one a statement of every sort. -/
def shopBlocks : List Block :=
  [.importModule "lib" "./lib" {},
    .importNames [⟨"tax", none⟩, ⟨"Cart", some "Box"⟩] "./shop" {},
    .markup
      ⟨"shop", [⟨"items", none, {}⟩, ⟨"title", some "'It\\'s'", {}⟩], ["buy", "close"],
        [.binding {} "box" (.call {} (.name {} "Box") []),
          .element {} "ul" [⟨"list-2x", some (.not {} (.name {} "items"))⟩]
            [("data-id", .string {} "u\x7b"), ("title", .string {} "été")]
            [.store {} "cart" (.new {} (.name {} "Cart")),
              .link {}
                [.single "buy" (some (.name {} "open")) ⟨.name {} "cart", none⟩,
                  .multi [⟨"add", none, some "put"⟩] ⟨.name {} "box", some (.name {} "this")⟩],
              .loop {} "item" (.name {} "items")
                [.element {} "li" [] [] [.text {} [.text "Buy ", .expr (.name {} "item")]]]],
          .choice {}
            [(.name {} "box", [.output {} (.name {} "box")]),
              (.name {} "items", [.element {} "hr" [] [] []])]
            (some [.text {} [.text "Grüße, 世界"]])],
        {}⟩]

def shopLayout : Layout := ⟨2, by decide, true, true⟩

theorem shopBlocks_read_back :
    shopBlocks.all Block.isWritable = true ∧
      shopLayout.text shopBlocks =
        "import lib from \"./lib\"\n" ++
        "import \x7btax, Cart as Box\x7d from \"./shop\"\n" ++
        "html shop(items, title='It\\'s') events buy, close:\n" ++
        "  let box = Box()\n" ++
        "  ul.list-2x?(not items)[data-id=\"u\x7b\x7b\", title=\"été\"]\n" ++
        "    store cart = new Cart\n" ++
        "    link buy[open] = cart, \x7badd: put\x7d = this -> box\n" ++
        "    for item of items:\n" ++
        "      li \"Buy \x7bitem\x7d\"\n" ++
        "  if box:\n" ++
        "    = box\n" ++
        "  elif items:\n" ++
        "    hr\n" ++
        "  else:\n" ++
        "    \"Grüße, 世界\"\n" ∧
      (Template.read "" (shopLayout.text shopBlocks)).map (fun t => t.blocks.map Block.unplaced) =
        .ok (shopBlocks.map Block.unplaced) :=
  ⟨by decide +kernel, by decide +kernel,
    Template.blocks_read_back shopLayout shopBlocks (by decide +kernel) ""⟩

end Stencil
