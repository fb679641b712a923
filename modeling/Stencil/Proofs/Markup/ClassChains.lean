import Stencil.Proofs.Markup.Elements
import Stencil.Proofs.Token.ChainLines
import Stencil.Proofs.Token.Endings

/-!
# Class chains in markup and in styles

A line such as `li.wide.btn-2x` may stand in a markup block, where it is an element, and in a style
block, where it is a selector. Markup puts the names of the classes together from words, dashes and
numbers, and a style word is cut at its dots afterwards. The lists are the same unless a dot stands
right in front of a digit: that dot belongs to a number in markup and cuts the word in a style block.
-/
namespace Stencil

open Text (Cluster splitChars)
open List String Selector

/-! ## Elements -/

namespace Parser

variable {α β : Type} {reading : Reading} {tokens : List Token} {p : Parser α}

/-- What the reader gives for these tokens, if it gives anything. -/
def GivesFor (p : Parser α) (reading : Reading) (tokens : List Token) (P : α → Prop) : Prop :=
  ∀ a rest, p reading tokens = .ok (a, rest) → P a

theorem GivesFor.bind {f : α → Parser β} {Q : β → Prop}
    (h : ∀ a middle, p reading tokens = .ok (a, middle) → (f a).GivesFor reading middle Q) :
    (p >>= f).GivesFor reading tokens Q := by
  intro b rest hb
  obtain ⟨a, middle, ha, hb⟩ := bind_eq_ok.mp hb
  exact h a middle ha b rest hb

theorem GivesFor.ite {q : Parser α} {P : α → Prop} {c : Prop} [Decidable c]
    (hp : c → p.GivesFor reading tokens P) (hq : ¬c → q.GivesFor reading tokens P) :
    (if c then p else q).GivesFor reading tokens P := by
  split
  · next hc => exact hp hc
  · next hc => exact hq hc

end Parser

namespace ClassChain

open Stencil.Parser

/-- The text of tokens that follow each other without a gap. -/
def textOf (ts : List Token) : List Char := ts.flatMap (·.literal.toList)

theorem textOf_cons (t : Token) (ts : List Token) :
    textOf (t :: ts) = t.literal.toList ++ textOf ts := rfl

theorem textOf_append (ts us : List Token) : textOf (ts ++ us) = textOf ts ++ textOf us :=
  flatMap_append

/-- If the statement is an element, the text is a tag and the names of its classes. -/
def HasChain (text : List Char) : Statement → Prop
  | .element _ _ clauses _ _ => (∃ tag, text = chars tag (clauses.map (·.name.toList)) ∧ '.' ∉ tag) ∧
      ∀ clause ∈ clauses, isName clause.name.toList = true
  | _ => True

section Line

variable {reading : Reading} {n : Token} {ts later rest : List Token} {s : String}

/-- A name goes on with pieces from the front of the line. -/
theorem namePieces_eq_ok {rounds offset : Nat} (hn : n.kind = .newline)
    (h : namePieces rounds offset reading (ts ++ n :: later) = .ok (s, rest)) :
    ∃ us vs, ts = us ++ vs ∧ rest = vs ++ n :: later ∧ s.toList = textOf us ∧
      ∀ u ∈ us, isNamePiece u := by
  induction rounds generalizing offset ts s with
  | zero =>
    cases h
    exact ⟨[], ts, rfl, rfl, rfl, by simp⟩
  | succ rounds ih =>
    rw [namePieces, round_eq] at h
    obtain ⟨t, middle, ⟨⟩, h⟩ := bind_eq_ok.mp h
    split at h
    · next hpiece =>
      obtain ⟨-, hpiece⟩ := Bool.and_eq_true_iff.mp hpiece
      obtain ⟨_, middle, ⟨⟩, h⟩ := bind_eq_ok.mp h
      obtain ⟨later', middle, hlater, h⟩ := bind_eq_ok.mp h
      cases h
      cases ts with
      | nil => simp [isNamePiece, Token.isWord, hn] at hpiece
      | cons t ts =>
        obtain ⟨us, vs, rfl, hrest, hs, hus⟩ := ih hlater
        refine ⟨t :: us, vs, rfl, hrest, ?_, forall_mem_cons.mpr ⟨hpiece, hus⟩⟩
        rw [toList_append, hs]
        rfl
    · cases h
      exact ⟨[], ts, rfl, rfl, rfl, by simp⟩

theorem dashName_eq_ok (hn : n.kind = .newline)
    (h : dashName reading (ts ++ n :: later) = .ok (s, rest)) :
    ∃ t us vs, ts = t :: us ++ vs ∧ rest = vs ++ n :: later ∧ s.toList = textOf (t :: us) ∧
      t.isWord ∧ ∀ u ∈ us, isNamePiece u := by
  obtain ⟨t, middle, ⟨⟩, h⟩ := bind_eq_ok.mp h
  split at h
  · next hword =>
    obtain ⟨_, middle, ⟨⟩, h⟩ := bind_eq_ok.mp h
    obtain ⟨tail, middle, htail, h⟩ := bind_eq_ok.mp h
    cases h
    cases ts with
    | nil => simp [Token.isWord, hn] at hword
    | cons t ts =>
      rw [bounded_eq] at htail
      obtain ⟨us, vs, rfl, hrest, hs, hus⟩ := namePieces_eq_ok hn htail
      refine ⟨t, us, vs, rfl, hrest, ?_, hword, hus⟩
      rw [toList_append, hs]
      rfl
  · exact absurd h (fail_ne_ok _ _ _ _ _)

variable (hn : n.kind = .newline) (hts : ∀ t ∈ ts, IsPiece t.kind t.literal.toList)

include hn hts

/-- What is in front on the line is a piece, or the line ends. -/
theorem kind_front (reading : Reading) (later : List Token) :
    ((ts ++ n :: later).headD reading.ending.token).kind = .newline ∧ ts = [] ∨
      ∃ t us, ts = t :: us ∧
        IsPiece ((ts ++ n :: later).headD reading.ending.token).kind t.literal.toList := by
  cases ts with
  | nil => exact .inl ⟨hn, rfl⟩
  | cons t us => exact .inr ⟨t, us, rfl, hts t mem_cons_self⟩

theorem accept_absent {k : TokenKind} (hnewline : k ≠ .newline)
    (hk : ∀ w, ¬ IsPiece k w) :
    accept k reading (ts ++ n :: later) = .ok (false, ts ++ n :: later) := by
  have hne : ((ts ++ n :: later).headD reading.ending.token).kind ≠ k := by
    rintro rfl
    rcases kind_front hn hts reading later with ⟨hkind, -⟩ | ⟨t, us, -, hpiece⟩
    · exact hnewline hkind
    · exact hk _ hpiece
  rw [accept_eq, if_neg hne]

end Line

theorem dotsInNumbers_of_isNamePiece {u : Token} (hu : IsPiece u.kind u.literal.toList)
    (hpiece : isNamePiece u) : dotsInNumbers u.literal.toList := by
  refine hu.dotsInNumbers fun hkind => ?_
  rw [isNamePiece, Token.isWord, hkind] at hpiece
  cases hpiece

variable {t : Token}

theorem isName_of_isWord (ht : IsPiece t.kind t.literal.toList) (hword : t.isWord) :
    isName t.literal.toList := by
  refine ht.isName ?_ ?_ ?_ <;> intro hkind <;> rw [Token.isWord, hkind] at hword <;> cases hword

/-- The name of a class starts with its word and goes on with its pieces. -/
theorem isName_textOf {us : List Token} (hus : ∀ u ∈ t :: us, IsPiece u.kind u.literal.toList)
    (hword : t.isWord) (hpieces : ∀ u ∈ us, isNamePiece u) :
    isName (textOf (t :: us)) := by
  rw [forall_mem_cons] at hus
  have hdots : dotsInNumbers (textOf us) := by
    obtain ⟨-, hus⟩ := hus
    induction us with
    | nil => rfl
    | cons u us ih =>
      rw [forall_mem_cons] at hus hpieces
      rw [textOf_cons]
      exact dotsInNumbers_append (dotsInNumbers_of_isNamePiece hus.1 hpieces.1) (ih hpieces.2 hus.2)
  obtain ⟨hhead, hfront⟩ := Bool.and_eq_true_iff.mp (isName_of_isWord hus.1 hword)
  rw [isName, textOf_cons, dotsInNumbers_append hfront hdots, Bool.and_true]
  cases hliteral : t.literal.toList with
  | nil => rw [hliteral] at hhead; cases hhead
  | cons c cs => rwa [hliteral] at hhead

section Line

variable {reading : Reading} {n : Token} {ts later rest : List Token} (hn : n.kind = .newline)

include hn

/-- A clause without a condition is a name. -/
theorem classClause_eq_ok {d : Token} {clause : ClassClause}
    (hts : ∀ t ∈ ts, IsPiece t.kind t.literal.toList)
    (h : ClassClause.parser reading (d :: ts ++ n :: later) = .ok (clause, rest)) :
    ∃ us vs, ts = us ++ vs ∧ rest = vs ++ n :: later ∧ clause.name.toList = textOf us ∧
      isName (textOf us) := by
  obtain ⟨_, middle, ⟨⟩, h⟩ := bind_eq_ok.mp h
  obtain ⟨name, middle, hname, h⟩ := bind_eq_ok.mp h
  obtain ⟨t, us, vs, rfl, rfl, htext, hword, hpieces⟩ := dashName_eq_ok hn hname
  rw [forall_mem_append] at hts
  have hquestion : accept .question reading (vs ++ n :: later) = .ok (false, vs ++ n :: later) :=
    accept_absent hn hts.2 (by decide) fun w hw => by simpa using hw.kind_cases
  obtain ⟨found, middle, hfound, h⟩ := bind_eq_ok.mp h
  rw [hquestion] at hfound
  cases hfound
  cases h
  exact ⟨t :: us, vs, rfl, rfl, htext, isName_textOf hts.1 hword hpieces⟩

/-- The clauses of a line are the names with their dots, up to where they end. -/
theorem classClauses_eq_ok {rounds : Nat} {clauses : List ClassClause}
    (hts : ∀ t ∈ ts, IsPiece t.kind t.literal.toList)
    (h : manyWhile (·.kind = .dot) ClassClause.parser rounds reading (ts ++ n :: later) =
      .ok (clauses, rest)) :
    ∃ us vs, ts = us ++ vs ∧ rest = vs ++ n :: later ∧
      textOf us = chars [] (clauses.map (·.name.toList)) ∧
      ∀ clause ∈ clauses, isName clause.name.toList := by
  induction rounds generalizing ts clauses with
  | zero =>
    cases h
    exact ⟨[], ts, rfl, rfl, rfl, by simp⟩
  | succ rounds ih =>
    rw [manyWhile, round_eq] at h
    obtain ⟨t, middle, ⟨⟩, h⟩ := bind_eq_ok.mp h
    split at h
    · next hdot =>
      obtain ⟨clause, middle, hclause, h⟩ := bind_eq_ok.mp h
      obtain ⟨clauses, middle, hclauses, h⟩ := bind_eq_ok.mp h
      cases h
      cases ts with
      | nil => simp [hn] at hdot
      | cons d ts =>
        have hd : d.literal.toList = ['.'] :=
          (hts d mem_cons_self).eq_dot (of_decide_eq_true hdot)
        rw [forall_mem_cons] at hts
        obtain ⟨us, vs, rfl, rfl, hname, hisName⟩ := classClause_eq_ok hn hts.2 hclause
        rw [forall_mem_append] at hts
        obtain ⟨us', vs, rfl, hrest, htext, hnames⟩ := ih hts.2.2 hclauses
        refine ⟨d :: (us ++ us'), vs, by simp, hrest, ?_, ?_⟩
        · rw [textOf_cons, textOf_append, htext, hd, ← hname]
          simp [chars]
        · exact forall_mem_cons.mpr ⟨by rwa [hname], hnames⟩
    · cases h
      exact ⟨[], ts, rfl, rfl, rfl, by simp⟩

/-- The line of an element that is all pieces is a tag and names of classes. -/
theorem element_givesFor (body : Place → Parser (List Statement))
    (hts : ∀ t ∈ ts, IsPiece t.kind t.literal.toList) :
    (Statement.elementParser body).GivesFor reading (ts ++ n :: later) (HasChain (textOf ts)) := by
  refine .bind fun p middle hhere => .bind fun t middle' hcurrent => ?_
  cases hhere
  cases hcurrent
  extract_lets named
  have hnamed : ∀ vs label, (∀ t ∈ vs, IsPiece t.kind t.literal.toList) →
      (named label).GivesFor reading (vs ++ n :: later)
        fun s => ∀ tag, '.' ∉ tag → HasChain (tag ++ textOf vs) s := by
    intro vs label hvs
    refine .bind fun clauses middle hclauses => .bind fun attributes middle' hattributes => ?_
    rw [many, bounded_eq] at hclauses
    obtain ⟨us, vs, rfl, rfl, htext, hnames⟩ := classClauses_eq_ok hn hvs hclauses
    rw [forall_mem_append] at hvs
    obtain ⟨found, middle, hfound, hattributes⟩ := bind_eq_ok.mp hattributes
    rw [accept_absent hn hvs.2 (by decide) fun w hw => by simpa using hw.kind_cases] at hfound
    cases hfound
    cases hattributes
    refine .bind fun k middle hkind => ?_
    cases hkind
    beta_reduce
    have hfront := kind_front hn hvs.2 reading later
    -- The names go up to the end of the line, for no other token may follow them.
    split
    · next hstring =>
      rw [hstring] at hfront
      rcases hfront with ⟨hnewline, -⟩ | ⟨t, -, -, hpiece⟩
      · cases hnewline
      · exact absurd hpiece.kind_cases (by simp)
    · next hnewline =>
      rw [hnewline] at hfront
      rcases hfront with ⟨-, rfl⟩ | ⟨t, -, -, hpiece⟩
      · refine .bind fun _ middle _ => .bind fun inner middle' _ => ?_
        rintro s rest ⟨⟩ tag htag
        refine ⟨⟨tag, ?_, htag⟩, hnames⟩
        rw [append_nil, htext]
        rfl
      · exact absurd rfl hpiece.kind_ne_newline
    · exact fun s rest h => absurd h (fail_ne_ok _ _ _ _ _)
  clear_value named
  refine .ite (fun hidentifier => ?_) fun _ => ?_
  · refine .bind fun _ middle hadvance => .bind fun label middle' hlabel => ?_
    cases hadvance
    cases hlabel
    cases ts with
    | nil => cases hn.symm.trans hidentifier
    | cons t ts =>
      rw [forall_mem_cons] at hts
      have htag := hts.1.not_mem_of_identifier hidentifier
      exact fun s rest h => hnamed ts _ hts.2 s rest h t.literal.toList htag
  · refine .bind fun label middle hlabel => ?_
    cases hlabel
    exact fun s rest h => hnamed ts "div" hts s rest h [] (by simp)

end Line

/-! ## Selectors -/

variable {reading : Reading} {n : Token} {us later : List Token} {text : List Char}

/-- The parts of a text between its dots, without the first one and without empty ones. -/
def parts (text : List Char) : List String :=
  ((splitChars '.' text).tail.filter (!·.isEmpty)).map String.ofList

theorem dotted_eq {word : String} {part : List Char} {rest : List (List Char)}
    (h : splitChars '.' word.toList = part :: rest) :
    dotted word = (ofList part, (rest.filter (!·.isEmpty)).map ofList) := by
  have hempty : (fun s : String => !s.isEmpty) ∘ ofList = fun p => !p.isEmpty := by
    funext p
    cases p <;> simp
  rw [dotted, Text.split, h, map_cons]
  dsimp only
  rw [filter_map, hempty]

theorem ne_dot_of_isStyleWordStart {c : Char} (hc : Lexeme.isStyleWordStart c) : c ≠ '.' := by
  rintro rfl
  cases hc

theorem parts_dot (text : List Char) : parts ('.' :: text) =
    ((splitChars '.' text).filter (!·.isEmpty)).map ofList := by
  rw [parts, ← nil_append ('.' :: text), splitChars_append_dot]
  rfl

/-- A class suffix that is read behind a dot has the parts of its word. -/
theorem classSuffix_eq_ok {d : Token} {suffix : List String} {rest : List Token}
    (hn : n.kind = .newline) (hlater : InStyle text us)
    (h : classSuffix reading (d :: us ++ n :: later) = .ok (suffix, rest)) :
    suffix = parts ('.' :: text) ∧ rest = n :: later := by
  obtain ⟨_, middle, ⟨⟩, h⟩ := bind_eq_ok.mp h
  obtain ⟨word, middle, hword, h⟩ := bind_eq_ok.mp h
  rw [expect_eq] at hword
  split at hword
  · next hkind =>
    cases hword
    cases hlater with
    | nil =>
      have hnewline : n.kind = .styleWord := hkind
      rw [hn] at hnewline
      cases hnewline
    | dot hdot =>
      have hword := hdot.symm.trans hkind
      cases hword
    | @word c cs t hc _ hliteral =>
      obtain ⟨found, middle, hfound, h⟩ := bind_eq_ok.mp h
      have hquestion : n.kind ≠ .question := by
        rw [hn]
        exact TokenKind.noConfusion
      have hnone : accept .question reading (n :: later) = .ok (false, n :: later) := by
        rw [accept_eq]
        exact if_neg hquestion
      cases hnone.symm.trans hfound
      obtain ⟨part, others, -, hsplit⟩ := Text.splitChars_cons (ne_dot_of_isStyleWordStart hc) cs
      rw [if_neg Bool.false_ne_true] at h
      simp only [cons_append, nil_append, tail_cons, headD_cons, dotted_eq (hliteral ▸ hsplit)] at h
      cases h
      rw [parts_dot, hsplit]
      exact ⟨rfl, rfl⟩
  · exact absurd hword (fail_ne_ok _ _ _ _ _)

theorem selector_givesFor (hn : n.kind = .newline) (h : InStyle text us) :
    Selector.parser.GivesFor reading (us ++ n :: later) (·.classes = parts text) := by
  refine .bind fun t middle hcurrent => ?_
  cases hcurrent
  extract_lets named
  have hnamed : ∀ (front : String × List String) tokens,
      (∀ suffixes middle, many (·.kind = .dot) classSuffix reading tokens =
        .ok (suffixes, middle) → front.2 ++ suffixes.flatten = parts text) →
      (named front).GivesFor reading tokens (·.classes = parts text) := by
    intro front tokens h
    refine .bind fun suffixes middle hsuffixes => .ite (fun _ => ?_) fun _ =>
      .bind fun state middle' _ => ?_
    · exact fun s rest h => absurd h (fail_ne_ok _ _ _ _ _)
    · rintro s rest ⟨⟩
      exact h suffixes middle hsuffixes
  clear_value named
  have hend : ∀ suffixes middle, many (·.kind = .dot) classSuffix reading (n :: later) =
      .ok (suffixes, middle) → suffixes = [] := by
    intro suffixes middle h
    rw [many, bounded_eq, manyWhile_of_not (by simp [hn])] at h
    cases h
    rfl
  cases h with
  | nil =>
    refine .ite (fun hword => ?_) fun _ => .bind fun front middle hfront => ?_
    · have hnewline : n.kind = .styleWord := hword
      rw [hn] at hnewline
      cases hnewline
    · cases hfront
      refine hnamed _ _ fun suffixes middle h => ?_
      rw [hend suffixes middle h]
      rfl
  | @word c cs t hc hkind hliteral =>
    refine .ite (fun _ => ?_) fun hword => absurd hkind hword
    refine .bind fun _ middle hadvance => .bind fun front middle' hfront => ?_
    cases hadvance
    cases hfront
    refine hnamed _ _ fun suffixes middle h => ?_
    obtain ⟨part, others, -, hsplit⟩ := Text.splitChars_cons (ne_dot_of_isStyleWordStart hc) cs
    change (dotted t.literal).2 ++ _ = _
    rw [hend suffixes middle h, dotted_eq (hliteral ▸ hsplit), parts, hsplit]
    exact append_nil _
  | @dot cs d us hkind hlater =>
    refine .ite (fun hword => ?_) fun _ => .bind fun front middle hfront => ?_
    · have hdot := hkind.symm.trans hword
      cases hdot
    · cases hfront
      refine hnamed _ _ fun suffixes middle h => ?_
      rw [many, bounded_eq, manyWhile_eq_ok (by simp [hkind])] at h
      obtain ⟨suffix, middle', others, hsuffix, hothers, rfl⟩ := h
      obtain ⟨rfl, rfl⟩ := classSuffix_eq_ok hn hlater hsuffix
      rw [manyWhile_of_not (by simp [hn])] at hothers
      cases hothers
      simp

/-! ## Lines of sources -/

/-- A text is a line of a source, behind other tokens: the scanner comes to it there, inside the line
after the layout of a new level, or from the start of a line at the level of the last one. The tokens
of the line go up to the next line break. -/
structure IsLine (mode : WordMode) (text : List Char) (file source : String)
    (before ts : List Token) (n : Token) (later : List Token) : Prop where
  tokens : (Scan.of file source).tokens = before ++ (ts ++ n :: later)
  faces : ∃ l, ((Lexer.start file source).after before.length).Comes l ∧ l.Faces mode text
  inline : ∀ t ∈ ts, t.kind ≠ .newline
  ends : n.kind = .newline

theorem IsLine.exists_trace {mode : WordMode} {file source : String} {before ts : List Token}
    (h : IsLine mode text file source before ts n later) (htext : ∀ c ∈ text, isChainChar c) :
    ∃ l m : Lexer, l.Faces mode text ∧ l.Trace (ts ++ [n]) m := by
  obtain ⟨m, hm⟩ : ∃ m, (Lexer.start file source).Trace (Scan.of file source).tokens m := by
    rcases (Scan.ends_of file source).kinds.2 with ⟨t, hending, -⟩ | ⟨t, fault, hending, -⟩
    · obtain ⟨m, -, hm, -⟩ := (Scan.ends_of _ _).of_eof hending
      exact ⟨m, hm⟩
    · obtain ⟨m, -, hm, -⟩ := (Scan.ends_of _ _).of_fault hending
      exact ⟨m, hm⟩
  rw [h.tokens, append_cons ts n later] at hm
  obtain ⟨k, hbefore, hline⟩ := hm.append
  obtain ⟨m', htrace, -⟩ := hline.append
  obtain ⟨l, hcomes, hfaces⟩ := h.faces
  rw [hbefore.after_eq] at hcomes
  have hscan := hfaces.scan_of_comes htext hcomes
  obtain ⟨i, rfl⟩ := hcomes.exists_skip
  refine ⟨_, m', hfaces, ?_⟩
  -- Only the first token of the line is scanned from where the scanner comes from.
  cases ts with
  | nil | cons =>
    cases htrace with
    | step hfault hfirst hkind hlater => exact .step hfault (hscan.symm.trans hfirst) hkind hlater

section Agreement

variable {text : List Char} {file file' source source' : String} {n n' : Token}
  {before before' ts us later later' rest rest' : List Token} {reading reading' : Reading}
  {body : Place → Parser (List Statement)} {p : Position} {name : String}
  {clauses : List ClassClause} {attributes : List (String × Expr)} {inner : List Statement}
  {s : Selector}

/-- A line that markup reads as an element and a style block as a selector has the same classes in
both exactly if no dot of it stands right in front of a digit. Otherwise the names of the element are
cut at their dots in the selector. -/
theorem same_classes_iff (htext : text.all isChainChar = true)
    (hmarkup : IsLine .plain text file source before ts n later)
    (hstyle : IsLine .style text file' source' before' us n' later')
    (helement : Statement.elementParser body reading (ts ++ n :: later) =
      .ok (.element p name clauses attributes inner, rest))
    (hselector : Selector.parser reading' (us ++ n' :: later') = .ok (s, rest')) :
    s.classes = (clauses.map (·.name)).flatMap (Text.split '.') ∧
      (s.classes = clauses.map (·.name) ↔ hasDecimalDot text = false) := by
  rw [List.all_eq_true] at htext
  obtain ⟨l, m, hfaces, htrace⟩ := hmarkup.exists_trace htext
  obtain ⟨l', m', hfaces', htrace'⟩ := hstyle.exists_trace htext
  obtain ⟨hpieces, hts⟩ := hfaces.pieces htext htrace hmarkup.inline hmarkup.ends
  have hus := hfaces'.inStyle htext htrace' hstyle.inline hstyle.ends
  obtain ⟨⟨tag, hchain, htag⟩, hnames⟩ := element_givesFor hmarkup.ends body hpieces _ _ helement
  have hclasses := selector_givesFor hstyle.ends hus _ _ hselector
  have hchars : text = chars tag (clauses.map (·.name.toList)) := hts.symm.trans hchain
  have hnames : ∀ name ∈ clauses.map (·.name.toList), isName name = true := by
    simpa using hnames
  have hstrings : clauses.map (·.name) = (clauses.map (·.name.toList)).map String.ofList := by
    simp
  rw [hchars, parts, parts_chars htag hnames] at hclasses
  rw [hchars, chars, hasDecimalDot_append (dotsInNumbers_of_not_mem htag), hasDecimalDot_names hnames,
    hclasses, hstrings]
  generalize clauses.map (·.name.toList) = names
  constructor
  · rw [List.map_flatMap, List.flatMap_map]
    simp only [Text.split, String.toList_ofList]
  · have hdots : tag.contains '.' = false := by simpa using htag
    rw [(List.map_injective_iff.mpr fun _ _ => String.ofList_injective).eq_iff,
      flatMap_splitChars_eq_iff, hdots, Bool.false_or]

end Agreement

/-- A chain as the first line of a style block and as the second one of a markup block. -/
def itemSource : String := "css:\n  li.a-2x.c_2\nf:\n  p\n  li.a-2x.c_2\n"

def itemPieces : List Token :=
  [⟨.identifier, "li", 5, 3, 28⟩, ⟨.dot, ".", 5, 5, 30⟩, ⟨.identifier, "a", 5, 6, 31⟩,
    ⟨.dash, "-", 5, 7, 32⟩, ⟨.number, "2", 5, 8, 33⟩, ⟨.identifier, "x", 5, 9, 34⟩,
    ⟨.dot, ".", 5, 10, 35⟩, ⟨.identifier, "c_2", 5, 11, 36⟩]

theorem isLine_itemPieces :
    IsLine .plain "li.a-2x.c_2".toList "page" itemSource ((Scan.of "page" itemSource).tokens.take 13)
      itemPieces ⟨.newline, "\n", 5, 14, 39⟩ [⟨.dedent, "", 6, 1, 40⟩] where
  tokens := by decide +kernel
  faces := ⟨_, .line ⟨by decide +kernel, by decide +kernel, by decide +kernel⟩
    (by decide +kernel) (by decide +kernel), ⟨⟨'\n', []⟩, [], by decide +kernel, by decide⟩,
    by decide +kernel, by decide +kernel, by decide +kernel⟩
  inline := by decide
  ends := rfl

theorem isLine_itemWord :
    IsLine .style "li.a-2x.c_2".toList "page" itemSource ((Scan.of "page" itemSource).tokens.take 4)
      [⟨.styleWord, "li.a-2x.c_2", 2, 3, 7⟩] ⟨.newline, "\n", 2, 14, 18⟩
      ((Scan.of "page" itemSource).tokens.drop 6) where
  tokens := by decide +kernel
  faces := ⟨_, .inside (by decide +kernel), ⟨⟨'\n', []⟩,
    Cluster.segment "f:\n  p\n  li.a-2x.c_2\n", by decide +kernel, by decide⟩,
    by decide +kernel, by decide +kernel, by decide +kernel⟩
  inline := by decide
  ends := rfl

def itemReading : Reading := ⟨"page", (Scan.of "page" itemSource).ending, fun _ => []⟩

theorem itemSource_same_classes :
    ∃ p clauses attributes inner rest s rest',
      Statement.elementParser (fun _ => pure []) itemReading (itemPieces ++
        [⟨.newline, "\n", 5, 14, 39⟩, ⟨.dedent, "", 6, 1, 40⟩]) =
        .ok (.element p "li" clauses attributes inner, rest) ∧
      Selector.parser itemReading ([⟨.styleWord, "li.a-2x.c_2", 2, 3, 7⟩] ++
        ⟨.newline, "\n", 2, 14, 18⟩ :: (Scan.of "page" itemSource).tokens.drop 6) = .ok (s, rest') ∧
      s = ⟨"li", ["a-2x", "c_2"], ""⟩ ∧ s.classes = clauses.map (·.name) := by
  obtain ⟨⟨s, rest'⟩, hselector, hs⟩ := @exists_of_toOption _ _
    (Selector.parser itemReading ([⟨.styleWord, "li.a-2x.c_2", 2, 3, 7⟩] ++
      ⟨.newline, "\n", 2, 14, 18⟩ :: (Scan.of "page" itemSource).tokens.drop 6))
    (·.1 = ⟨"li", ["a-2x", "c_2"], ""⟩) (by decide +kernel)
  obtain ⟨p, clauses, attributes, inner, rest, helement⟩ : ∃ p clauses attributes inner rest,
      Statement.elementParser (fun _ => pure []) itemReading (itemPieces ++
        [⟨.newline, "\n", 5, 14, 39⟩, ⟨.dedent, "", 6, 1, 40⟩]) =
        .ok (.element p "li" clauses attributes inner, rest) :=
    ⟨_, _, _, _, _, rfl⟩
  have hsame := (same_classes_iff (by decide) isLine_itemPieces isLine_itemWord helement
    hselector).2.mpr (by decide)
  exact ⟨p, clauses, attributes, inner, rest, s, rest', helement, hselector, of_decide_eq_true hs,
    hsame⟩

/-- The dot of a number belongs to the class of an element and ends the class of a selector. -/
theorem decimal_dot_splits_class :
    ∃ t, Template.read "page" "css:\n  .w-1.5\nf:\n  .w-1.5\n" = .ok t ∧
      (t.rules.flatMap (·.selectors)).map (·.classes) = [["w-1", "5"]] ∧
      (t.markupBlocks.flatMap (Statement.elementsOf ·.body)).map (·.classes.map (·.name)) =
        [["w-1.5"]] := by
  obtain ⟨t, hread, hclasses⟩ := @exists_of_toOption _ _
    (Template.read "page" "css:\n  .w-1.5\nf:\n  .w-1.5\n")
    (fun t => (t.rules.flatMap (·.selectors)).map (·.classes) = [["w-1", "5"]] ∧
      (t.markupBlocks.flatMap (Statement.elementsOf ·.body)).map (·.classes.map (·.name)) =
        [["w-1.5"]]) (by decide +kernel)
  exact ⟨t, hread, of_decide_eq_true hclasses⟩

end ClassChain
end Stencil
