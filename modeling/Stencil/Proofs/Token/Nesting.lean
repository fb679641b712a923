import Stencil.Proofs.Token.Spelling

/-!
# Open brackets and strings

What is open at a place of a source is found without tokens: by going over the clusters once, past
strings and comments, with the open brackets at hand. The scanner goes the same way. At each of its
tokens it has the same brackets open, and no token begins inside a string or a comment.
-/
namespace Stencil

open Text (Cluster isDigit)
open List

/-! ## Going over clusters -/

/-- What the clusters at a place belong to. -/
inductive Zone where
  | plain
  | comment
  | string (quote : Char)
  | escaped (quote : Char)
deriving DecidableEq, Repr

def Zone.next : Zone → Cluster → Zone
  | .plain, k =>
    if k.lead = '#' then .comment
    else if k.lead = '"' ∨ k.lead = '\'' then .string k.lead
    else .plain
  | .comment, k => if k.lead = '\n' then .plain else .comment
  | .string quote, k =>
    if k.lead = quote then .plain else if k.lead = '\\' then .escaped quote else .string quote
  | .escaped quote, _ => .string quote

def Zone.isString : Zone → Bool
  | .plain | .comment => false
  | .string _ | .escaped _ => true

/-- The open brackets after a character, unless it closes one that is not the innermost. -/
def nestChar (opened : List Bracket) (c : Char) : Option (List Bracket) :=
  match Bracket.ofOpening? c, Bracket.ofClosing? c with
  | some b, _ => some (b :: opened)
  | none, some b => if opened.head? = some b then some opened.tail else none
  | none, none => some opened

/-- What is open at a place: brackets, innermost first, and a string or a comment. -/
structure Nesting where
  opened : List Bracket := []
  zone : Zone := .plain

namespace Nesting

/-- What is open after one more cluster, unless it closes a bracket that is not the innermost. -/
def next (n : Nesting) (k : Cluster) : Option Nesting :=
  (if n.zone = .plain then nestChar n.opened k.lead else some n.opened).map (⟨·, n.zone.next k⟩)

def after (n : Nesting) (ks : List Cluster) : Option Nesting := ks.foldlM next n

/-- A bracket or a string is open. -/
def isOpen (n : Nesting) : Bool := !n.opened.isEmpty || n.zone.isString

end Nesting

/-- A bracket or a string is open at the end of the source. -/
def leavesOpen (source : String) : Bool :=
  (Nesting.after {} (Cluster.segment source)).any Nesting.isOpen

-- The first bracket stands in a comment, the second is closed, and the third is in a string.
example : leavesOpen "# (\nf(\")\")\n" = false ∧ leavesOpen "f('(\n" = true := by decide +kernel

namespace Nesting

variable {n m : Nesting} {opened later : List Bracket} {zone : Zone} {k : Cluster}
  {ks rest : List Cluster}

theorem next_of_nestChar (h : nestChar opened k.lead = some later) :
    next ⟨opened, .plain⟩ k = some ⟨later, Zone.plain.next k⟩ := by
  rw [next, if_pos rfl, h]
  rfl

/-- Brackets in comments and strings do not count. -/
theorem next_of_ne (opened : List Bracket) (zone : Zone) (h : zone ≠ .plain) (k : Cluster) :
    next ⟨opened, zone⟩ k = some ⟨opened, zone.next k⟩ := by
  rw [next, if_neg h]
  rfl

theorem after_cons (h : n.next k = some m) (ks : List Cluster) :
    n.after (k :: ks) = m.after ks := by
  rw [after, foldlM_cons, h]
  rfl

theorem after_append (h : n.after ks = some m) (rest : List Cluster) :
    n.after (ks ++ rest) = m.after rest := by
  rw [after] at h
  rw [after, foldlM_append, h]
  rfl

end Nesting

/-- A character that no bracket, string or comment begins or ends with. -/
def isInert (c : Char) : Bool := !(['(', ')', '[', ']', '{', '}', '#', '"', '\''].contains c)

variable {c : Char}

theorem isInert_of {part : Char → Bool} (h : part c)
    (hother : ['(', ')', '[', ']', '{', '}', '#', '"', '\''].any part = false) :
    isInert c := by
  rw [isInert, Bool.not_eq_true', ← Bool.not_eq_true, contains_iff_mem]
  intro hmem
  rw [any_eq_false] at hother
  exact hother c hmem h

theorem nestChar_of_isInert (h : isInert c) (opened : List Bracket) :
    nestChar opened c = some opened := by
  simp only [isInert, Bool.not_eq_true', contains_eq_mem, mem_cons, not_mem_nil,
    or_false, decide_eq_false_iff_not, not_or] at h
  have hopening : Bracket.ofOpening? c = none := by
    simp [Bracket.ofOpening?, Bracket.all, Bracket.opening, Ne.symm h.1, Ne.symm h.2.2.1,
      Ne.symm h.2.2.2.2.1]
  have hclosing : Bracket.ofClosing? c = none := by
    simp [Bracket.ofClosing?, Bracket.all, Bracket.closing, Ne.symm h.2.1, Ne.symm h.2.2.2.1,
      Ne.symm h.2.2.2.2.2.1]
  rw [nestChar, hopening, hclosing]

namespace Nesting

variable {opened : List Bracket} {zone : Zone} {quote : Char} {k : Cluster} {ks : List Cluster}
  {b : Bracket}

theorem next_of_isInert (h : isInert k.lead) (opened : List Bracket) :
    next ⟨opened, .plain⟩ k = some ⟨opened, .plain⟩ := by
  have hhash : k.lead ≠ '#' := fun heq => by simp [isInert, heq] at h
  have hquote : ¬(k.lead = '"' ∨ k.lead = '\'') := by
    rintro (heq | heq) <;> simp [isInert, heq] at h
  rw [next_of_nestChar (nestChar_of_isInert h opened), Zone.next, if_neg hhash, if_neg hquote]

theorem after_inert (h : ∀ k ∈ ks, isInert k.lead) (opened : List Bracket) :
    after ⟨opened, .plain⟩ ks = some ⟨opened, .plain⟩ := by
  induction ks with
  | nil => rfl
  | cons k ks ih =>
    obtain ⟨hk, hlater⟩ := forall_mem_cons.mp h
    rw [after_cons (next_of_isInert hk opened), ih hlater]

/-- A quote begins a string. -/
theorem next_of_quote (h : k.lead = '"' ∨ k.lead = '\'') (opened : List Bracket) :
    next ⟨opened, .plain⟩ k = some ⟨opened, .string k.lead⟩ := by
  have hhash : k.lead ≠ '#' := by rcases h with heq | heq <;> rw [heq] <;> decide
  have hnest : nestChar opened k.lead = some opened := by
    rcases h with heq | heq <;> rw [heq] <;> rfl
  rw [next_of_nestChar hnest, Zone.next, if_neg hhash, if_pos h]

theorem next_of_opening (hk : Bracket.ofOpening? k.lead = some b) (opened : List Bracket) :
    next ⟨opened, .plain⟩ k = some ⟨b :: opened, .plain⟩ := by
  have hopening : b.opening = k.lead := by simpa using find?_some hk
  have hzone : Zone.plain.next k = .plain := by
    rw [Zone.next, ← hopening]
    cases b <;> rfl
  have hnest : nestChar opened k.lead = some (b :: opened) := by rw [nestChar, hk]
  rw [next_of_nestChar hnest, hzone]

theorem next_of_closing (hk : Bracket.ofClosing? k.lead = some b) (opened : List Bracket) :
    next ⟨b :: opened, .plain⟩ k = some ⟨opened, .plain⟩ := by
  have hclosing : b.closing = k.lead := by simpa using find?_some hk
  have hzone : Zone.plain.next k = .plain := by
    rw [Zone.next, ← hclosing]
    cases b <;> rfl
  have hnest : nestChar (b :: opened) k.lead = some opened := by
    rw [nestChar, Bracket.ofOpening?_of_closing hk, hk]
    exact if_pos rfl
  rw [next_of_nestChar hnest, hzone]

/-- Behind a quote a string goes on to its end. -/
theorem after_string {length : Nat} (h : Lexeme.stringRest quote ks = some length)
    (opened : List Bracket) :
    after ⟨opened, .string quote⟩ (ks.take length) = some ⟨opened, .plain⟩ := by
  obtain ⟨front, more, rfl, hfront, rfl⟩ := Lexeme.stringRest_eq_some.mp h
  rw [take_left]
  clear h
  induction hfront with
  | mark hk =>
    rw [after_cons (next_of_ne _ _ Zone.noConfusion _), Zone.next, if_pos hk]
    rfl
  | escape hk hslash _ ih =>
    rw [after_cons (next_of_ne _ _ Zone.noConfusion _), Zone.next, if_neg hk, if_pos hslash,
      after_cons (next_of_ne _ _ Zone.noConfusion _), Zone.next, ih]
  | other hk hslash _ ih =>
    rw [after_cons (next_of_ne _ _ Zone.noConfusion _), Zone.next, if_neg hk, if_neg hslash, ih]

/-- A string without an end is open at the end of the source. -/
theorem after_unterminated (h : Lexeme.stringRest quote ks = none) (opened : List Bracket) :
    ∃ zone, after ⟨opened, .string quote⟩ ks = some ⟨opened, zone⟩ ∧ zone.isString := by
  induction ks using Lexeme.stringRest.induct quote with
  | case1 => exact ⟨_, rfl, rfl⟩
  | case2 k ks hk =>
    unfold Lexeme.stringRest at h
    rw [if_pos hk] at h
    cases h
  | case3 k hk hslash =>
    rw [after_cons (next_of_ne _ _ Zone.noConfusion _), Zone.next, if_neg hk, if_pos hslash]
    exact ⟨_, rfl, rfl⟩
  | case4 k hk hslash j ks ih =>
    rw [Lexeme.stringRest, if_neg hk, if_pos hslash] at h
    rw [after_cons (next_of_ne _ _ Zone.noConfusion _), Zone.next, if_neg hk, if_pos hslash,
      after_cons (next_of_ne _ _ Zone.noConfusion _), Zone.next]
    exact ih (Option.map_eq_none_iff.mp h)
  | case5 k ks hk hslash ih =>
    unfold Lexeme.stringRest at h
    rw [if_neg hk, if_neg hslash] at h
    rw [after_cons (next_of_ne _ _ Zone.noConfusion _), Zone.next, if_neg hk, if_neg hslash]
    exact ih (Option.map_eq_none_iff.mp h)

/-! ### Between tokens -/

end Nesting

def Zone.between (comment : Bool) : Zone := if comment then .comment else .plain

/-- Whether a comment still goes on after trivia. -/
def inComment (comment : Bool) (ks : List Cluster) : Bool :=
  ks.foldl (fun comment k => k.lead ≠ '\n' && (comment || k.first = '#')) comment

/-- A gap ends in a comment only in front of a line break or at the end of the source. -/
theorem lead_of_inComment_gapFrom {ks : List Cluster} {bracketed comment : Bool}
    (h : inComment comment (ks.take (Lexeme.gapFrom bracketed comment ks))) :
    ∀ k ∈ (ks.drop (Lexeme.gapFrom bracketed comment ks)).head?, k.lead = '\n' := by
  induction ks generalizing comment with
  | nil => simp
  | cons k ks ih =>
    have hstep : ∀ now, (decide (k.lead ≠ '\n') && (comment || decide (k.first = '#'))) = now →
        Lexeme.gapFrom bracketed comment (k :: ks) = 1 + Lexeme.gapFrom bracketed now ks →
        ∀ j ∈ ((k :: ks).drop (Lexeme.gapFrom bracketed comment (k :: ks))).head?,
          j.lead = '\n' := by
      intro now hnow hgap
      rw [hgap, Nat.add_comm, take_succ_cons, inComment, foldl_cons, hnow] at h
      rw [hgap, Nat.add_comm, drop_succ_cons]
      exact ih h
    by_cases hk : k.lead = '\n'
    · cases bracketed with
      | false =>
        intro j hj
        rw [Lexeme.gapFrom, if_pos hk, if_neg Bool.false_ne_true, drop_zero] at hj
        cases hj
        exact hk
      | true => exact hstep false (by simp [hk]) (by rw [Lexeme.gapFrom, if_pos hk, if_pos rfl])
    · have hfirst := Cluster.lead_eq_first hk
      cases comment with
      | true =>
        exact hstep true (by simp [hk]) (by rw [Lexeme.gapFrom, if_neg hk, if_pos rfl])
      | false =>
        by_cases hblank : (k.lead = ' ' || k.lead = '\t' || k.lead = '\r')
        · have hhash : k.first ≠ '#' := by
            intro heq
            rw [hfirst, heq] at hblank
            cases hblank
          exact hstep false (by simp [hhash])
            (by rw [Lexeme.gapFrom, if_neg hk, if_neg Bool.false_ne_true, if_pos hblank])
        · by_cases hhash : k.lead = '#'
          · exact hstep true (by simp [← hfirst, hhash])
              (by rw [Lexeme.gapFrom, if_neg hk, if_neg Bool.false_ne_true, if_neg hblank,
                if_pos hhash])
          · rw [Lexeme.gapFrom, if_neg hk, if_neg Bool.false_ne_true, if_neg hblank,
              if_neg hhash] at h
            cases h

namespace Nesting

variable {opened later : List Bracket} {c : Char} {k : Cluster} {ks js rest : List Cluster}
  {comment : Bool}

/-- At the end of its line a comment is over. -/
theorem next_lineBreak (hk : k.lead = '\n') (opened : List Bracket) (comment : Bool) :
    next ⟨opened, .between comment⟩ k = some ⟨opened, .plain⟩ := by
  cases comment with
  | true =>
    rw [next_of_ne opened (.between true) Zone.noConfusion]
    simp [Zone.between, Zone.next, hk]
  | false => exact next_of_isInert (by rw [hk]; rfl) opened

theorem next_comment (hk : k.lead ≠ '\n') (opened : List Bracket) :
    next ⟨opened, .between true⟩ k = some ⟨opened, .between true⟩ := by
  rw [next_of_ne opened (.between true) Zone.noConfusion]
  simp [Zone.between, Zone.next, hk]

theorem next_hash (hk : k.lead = '#') (opened : List Bracket) :
    next ⟨opened, .plain⟩ k = some ⟨opened, .between true⟩ := by
  have hnest : nestChar opened k.lead = some opened := by
    rw [hk]
    rfl
  rw [next_of_nestChar hnest, Zone.next, if_pos hk]
  rfl

theorem after_trivia (h : Lexeme.isTrivia comment ks) (opened : List Bracket) :
    after ⟨opened, .between comment⟩ ks = some ⟨opened, .between (inComment comment ks)⟩ := by
  induction ks generalizing comment with
  | nil => rfl
  | cons k ks ih =>
    have hstep : ∀ now, Lexeme.isTrivia now ks →
        next ⟨opened, .between comment⟩ k = some ⟨opened, .between now⟩ →
        (decide (k.lead ≠ '\n') && (comment || decide (k.first = '#'))) = now →
        after ⟨opened, .between comment⟩ (k :: ks) =
          some ⟨opened, .between (inComment comment (k :: ks))⟩ := by
      intro now htrivia hnext hnow
      rw [after_cons hnext, ih htrivia, inComment, inComment, foldl_cons, hnow]
    rw [Lexeme.isTrivia] at h
    by_cases hk : k.lead = '\n'
    · rw [if_pos hk] at h
      exact hstep false h (next_lineBreak hk opened comment) (by simp [hk])
    · have hfirst := Cluster.lead_eq_first hk
      rw [if_neg hk] at h
      cases comment with
      | true => exact hstep true (by simpa using h) (next_comment hk opened) (by simp [hk])
      | false =>
        by_cases hhash : k.first = '#'
        · exact hstep true (by simpa [hhash] using h) (next_hash (hfirst.trans hhash) opened)
            (by simp [hk, hhash])
        · rw [if_neg (by simpa using hhash), Bool.and_eq_true] at h
          refine hstep false h.2 (next_of_isInert ?_ opened) (by simp [hhash])
          rw [hfirst]
          exact @isInert_of k.first (fun c => c = ' ' || c = '\t' || c = '\r') h.1 (by decide)

/-- A comment in front of a line break, or none. -/
def Lasts (comment : Bool) (rest : List Cluster) : Prop :=
  comment = true → ∀ k ∈ rest.head?, k.lead = '\n'

theorem after_between (h : Lasts comment rest) (hne : rest ≠ []) :
    after ⟨opened, .between comment⟩ rest = after ⟨opened, .plain⟩ rest := by
  cases comment with
  | false => rfl
  | true =>
    obtain ⟨k, ks, rfl⟩ := exists_cons_of_ne_nil hne
    have hk : k.lead = '\n' := h rfl k rfl
    rw [after_cons (next_lineBreak hk opened true),
      after_cons (next_of_isInert (by rw [hk]; rfl) opened)]

/-- Going over clusters from outside strings and comments to such a place again, up to the comment
at the end of a line. -/
def Clears (opened : List Bracket) (ks rest : List Cluster) (later : List Bracket) : Prop :=
  ∃ comment, after ⟨opened, .plain⟩ ks = some ⟨later, .between comment⟩ ∧ Lasts comment rest

theorem Clears.refl (opened : List Bracket) (rest : List Cluster) : Clears opened [] rest opened :=
  ⟨false, rfl, Bool.noConfusion⟩

theorem Clears.of_after (h : after ⟨opened, .plain⟩ ks = some ⟨later, .plain⟩)
    (rest : List Cluster) : Clears opened ks rest later :=
  ⟨false, h, Bool.noConfusion⟩

theorem Clears.trans {inner : List Bracket} (h : Clears opened ks (js ++ rest) inner)
    (h' : Clears inner js rest later) : Clears opened (ks ++ js) rest later := by
  obtain ⟨comment, hks, hlasts⟩ := h
  obtain ⟨comment', hjs, hlasts'⟩ := h'
  cases js with
  | nil =>
    have hsame : inner = later := congrArg Nesting.opened (Option.some.inj hjs)
    rw [append_nil, ← hsame]
    exact ⟨comment, hks, hlasts⟩
  | cons k js =>
    have hfront : Lasts comment (k :: js) := hlasts
    refine ⟨comment', ?_, hlasts'⟩
    rw [after_append hks, after_between hfront (cons_ne_nil _ _)]
    exact hjs

theorem clears_gap (opened : List Bracket) (bracketed : Bool) (ks : List Cluster) :
    Clears opened (ks.take (Lexeme.gap bracketed ks)) (ks.drop (Lexeme.gap bracketed ks)) opened :=
  ⟨_, after_trivia (Lexeme.isTrivia_gapFrom bracketed false ks) opened, lead_of_inComment_gapFrom⟩

theorem clears_blankLines (opened : List Bracket) (ks : List Cluster) :
    Clears opened (ks.take (Lexeme.blankLines ks)) (ks.drop (Lexeme.blankLines ks)) opened := by
  rcases Lexeme.blankLinesFrom_cases 0 false ks with
    hzero | ⟨lines, rest, rfl, hcount, htrivia, hend⟩
  · rw [Lexeme.blankLines, hzero]
    exact .refl opened _
  · rw [Nat.zero_add] at hcount
    rw [Lexeme.blankLines, hcount, take_left, drop_left]
    refine ⟨_, after_trivia htrivia opened, fun hcomment => ?_⟩
    rcases hend with rfl | ⟨-, init, last, rfl, hlast⟩
    · simp
    · -- The last line is closed, so no comment goes on.
      rw [inComment, foldl_append, foldl_cons, foldl_nil, hlast] at hcomment
      simp at hcomment

end Nesting

/-! ## Tokens -/

namespace Lexeme

variable {k : Cluster} {ks : List Cluster} {kind : TokenKind} {length : Nat}

theorem isInert_run {part : Char → Bool}
    (hother : ['(', ')', '[', ']', '{', '}', '#', '"', '\''].any part = false) :
    ∀ j ∈ ks.take (run part ks), isInert j.lead := by
  intro j hj
  rw [run, ← prefix_iff_eq_take.mp ( takeWhile_prefix _)] at hj
  have hpart : part j.lead := (mem_takeWhile_imp hj :)
  exact isInert_of hpart hother

theorem isInert_number : ∀ j ∈ ks.take (number ks), isInert j.lead := by
  induction ks with
  | nil => simp
  | cons k ks ih =>
    rw [number]
    split
    · next hpart =>
      rw [Nat.add_comm, take_succ_cons, forall_mem_cons]
      refine ⟨?_, ih⟩
      have hsign : (isDigit k.lead || k.lead = '_' || k.lead = '.') := by
        simp only [Bool.or_eq_true, Bool.and_eq_true] at hpart ⊢
        exact hpart.imp id And.left
      exact @isInert_of k.lead (fun c => isDigit c || c = '_' || c = '.') hsign (by decide)
    · simp

theorem operator_isInert {c : Char} {next : Option Char} (h : operator c next = some (kind, length))
    : isInert c ∧ (length = 1 ∨ (length = 2 ∧ ∃ d, next = some d ∧ isInert d)) := by
  unfold operator at h
  dsimp only at h
  split at h <;> (try split at h) <;> cases h <;> simp_all <;> decide

theorem isInert_operator (h : operator k.lead (ks.head?.map (·.first)) = some (kind, length)) :
    ∀ j ∈ (k :: ks).take length, isInert j.lead := by
  obtain ⟨hk, rfl | ⟨rfl, d, hd, hinert⟩⟩ := operator_isInert h
  · simpa using hk
  · obtain ⟨j, hj, rfl⟩ := Option.map_eq_some_iff.mp hd
    obtain ⟨rest, rfl⟩ := head?_eq_some_iff.mp hj
    have hsecond : isInert j.lead := by
      by_cases hline : j.lead = '\n'
      · rw [hline]
        rfl
      · rwa [Cluster.lead_eq_first hline]
    simp [hk, hsecond]

end Lexeme

namespace Lexer

variable {l m n : Lexer} {t : Token} {ts : List Token} {k : Cluster} {rest : List Cluster}
  {result : Scanned}

/-- The scanner gets from one place to another with the brackets that the clusters between them open
and close. -/
def Walks (l m : Lexer) : Prop :=
  ∃ n, m.cursor = l.cursor.skip n ∧
    Nesting.Clears l.brackets (l.cursor.rest.take n) m.cursor.rest m.brackets

theorem walks_skip {n : Nat} (hcursor : m.cursor = l.cursor.skip n)
    (h : Nesting.Clears l.brackets (l.cursor.rest.take n) (l.cursor.rest.drop n) m.brackets) :
    l.Walks m :=
  ⟨n, hcursor, by rwa [hcursor, Cursor.rest_skip]⟩

theorem walks_here (hcursor : m.cursor = l.cursor) (hbrackets : m.brackets = l.brackets) :
    l.Walks m :=
  walks_skip (n := 0) hcursor (by rw [hbrackets]; exact .refl _ _)

theorem Walks.trans (h : l.Walks m) (h' : m.Walks n) : l.Walks n := by
  obtain ⟨i, hm, hclears⟩ := h
  obtain ⟨j, hn, hclears'⟩ := h'
  refine ⟨i + j, by rw [Cursor.skip_add, ← hm, hn], ?_⟩
  have hrest : m.cursor.rest = l.cursor.rest.drop i := by rw [hm, Cursor.rest_skip]
  have hsplit : m.cursor.rest = m.cursor.rest.take j ++ n.cursor.rest := by
    rw [hn, Cursor.rest_skip, take_append_drop]
  rw [take_add, ← hrest]
  rw [hsplit] at hclears
  exact hclears.trans hclears'

theorem walks_inert {n : Nat} (hcursor : m.cursor = l.cursor.skip n)
    (hbrackets : m.brackets = l.brackets)
    (h : ∀ k ∈ l.cursor.rest.take n, isInert k.lead) : l.Walks m :=
  walks_skip hcursor (.of_after (by rw [hbrackets]; exact Nesting.after_inert h _) _)

theorem walks_pastBlank (l : Lexer) : l.Walks l.pastBlank :=
  walks_skip rfl (Nesting.clears_blankLines _ _)

theorem walks_pastGap (l : Lexer) : l.Walks l.pastGap :=
  walks_skip rfl (Nesting.clears_gap _ _ _)

theorem walks_pastMargin (l : Lexer) : l.Walks l.pastMargin := by
  refine walks_inert (n := (l.cursor.rest.takeWhile (·.lead = ' ')).length) rfl rfl ?_
  rw [← prefix_iff_eq_take.mp ( takeWhile_prefix _)]
  intro k hk
  have hspace : decide (k.lead = ' ') = true := (mem_takeWhile_imp hk :)
  rw [of_decide_eq_true hspace]
  rfl

theorem Comes.walks (h : l.Comes m) : l.Walks m ∧ m.brackets = l.brackets := by
  cases h with
  | inside => exact ⟨walks_pastGap l, rfl⟩
  | ending => exact ⟨walks_pastBlank l, rfl⟩
  | line =>
    exact ⟨(walks_pastBlank l).trans ((walks_pastMargin _).trans (walks_pastGap _)), rfl⟩

/-- The scanner stands at what a cause is about: a closing bracket that is not that of the innermost
open one, or a quote without another. -/
structure StandsAt (l : Lexer) (cause : Cause) : Prop where
  bracket : ∀ c, cause = .unmatchedClosing c →
    ∃ k rest, l.cursor.rest = k :: rest ∧ k.lead = c ∧ nestChar l.brackets c = none
  string : cause = .unterminatedString → ∃ k rest, l.cursor.rest = k :: rest ∧
    (k.lead = '"' ∨ k.lead = '\'') ∧ Lexeme.stringRest k.lead rest = none

/-- What a scan comes to: the scanner walks past a token, or up to what a fault is about. Only at
the end of the source is a level closed inside brackets. -/
def Paces (l : Lexer) : Scanned → Prop
  | .ok (t, m) => l.Walks m ∧
    (t.kind = .dedent → l.brackets ≠ [] → m.cursor.rest = [] ∧ t.offset = m.cursor.offset)
  | .error ((t, fault), _) =>
    ∃ k, l.Walks k ∧ t.offset = k.cursor.offset ∧ k.StandsAt fault.cause

theorem Paces.of_walks (h : m.Paces result) (hwalks : l.Walks m)
    (hbrackets : m.brackets = l.brackets) : l.Paces result := by
  cases result with
  | ok result => exact ⟨hwalks.trans h.1, fun hkind hne => h.2 hkind (hbrackets ▸ hne)⟩
  | error failure =>
    obtain ⟨k, hk, hstands⟩ := h
    exact ⟨k, hwalks.trans hk, hstands⟩

/-- Past a bracket that may stand here. -/
theorem walks_bracket {opened : List Bracket} (hrest : l.cursor.rest = k :: rest)
    (hnext : Nesting.next ⟨l.brackets, .plain⟩ k = some ⟨opened, .plain⟩) :
    l.Walks { l with cursor := l.cursor.step, brackets := opened } := by
  refine walks_skip (n := 1) rfl (.of_after ?_ _)
  rw [hrest, take_succ_cons, Nesting.after_cons hnext]
  rfl

theorem Takes.paces (hrest : l.cursor.rest = k :: rest) (h : l.Takes k rest result) :
    l.Paces result := by
  cases h with
  | string hquote hlength =>
    refine ⟨walks_skip rfl (.of_after ?_ _), TokenKind.noConfusion⟩
    rw [hrest, take_succ_cons, Nesting.after_cons (Nesting.next_of_quote hquote l.brackets)]
    exact Nesting.after_string hlength l.brackets
  | unterminated hquote hnone =>
    exact ⟨l, walks_here rfl rfl, rfl, fun c => Cause.noConfusion,
      fun _ => ⟨k, rest, hrest, hquote, hnone⟩⟩
  | opening hb =>
    exact ⟨walks_bracket hrest (Nesting.next_of_opening hb l.brackets), TokenKind.noConfusion⟩
  | closing hb hbrackets =>
    refine ⟨walks_bracket hrest ?_, TokenKind.noConfusion⟩
    rw [hbrackets]
    exact Nesting.next_of_closing hb _
  | @unmatched b hb hbrackets =>
    -- The fault stands at the bracket itself.
    have hclosing : b.closing = k.lead := by simpa using find?_some hb
    refine ⟨l, walks_here rfl rfl, rfl, ?_, Cause.noConfusion⟩
    rintro c ⟨⟩
    refine ⟨k, rest, hrest, hclosing.symm, ?_⟩
    rw [hclosing, nestChar, Bracket.ofOpening?_of_closing hb, hb]
    exact if_neg hbrackets
  | styleWord =>
    exact ⟨walks_inert rfl rfl (Lexeme.isInert_run (by decide)), TokenKind.noConfusion⟩
  | word =>
    exact ⟨walks_inert rfl rfl (Lexeme.isInert_run (by decide)),
      fun hdedent => absurd hdedent (ofWord_kind _).1.2.1⟩
  | number => exact ⟨walks_inert rfl rfl Lexeme.isInert_number, TokenKind.noConfusion⟩
  | sign _ hsign =>
    refine ⟨walks_inert rfl rfl ?_, fun hdedent => absurd hdedent (operator_kind hsign).2.1.2.1⟩
    rw [hrest]
    exact Lexeme.isInert_operator hsign
  | unexpected => exact ⟨l, walks_here rfl rfl, rfl, fun c => Cause.noConfusion, Cause.noConfusion⟩

theorem Gives.paces (h : l.Gives result) : l.Paces result := by
  cases h with
  | lastLine hrest | lastLevel hrest | eof hrest =>
    exact ⟨walks_here rfl rfl, fun _ _ => ⟨hrest, rfl⟩⟩
  | newline hrest hk =>
    refine ⟨walks_inert rfl rfl ?_, TokenKind.noConfusion⟩
    simp [hrest, hk, isInert]
  | cluster hrest _ htakes => exact htakes.paces hrest

/-- No bracket is open at the start of a line, so levels may end there. -/
theorem Lays.paces (h : l.Lays result) (hnone : l.brackets = []) : l.Paces result := by
  have hinside := walks_pastMargin l
  cases h with
  | tab | uneven => exact ⟨_, hinside, rfl, fun c => Cause.noConfusion, Cause.noConfusion⟩
  | indent | dedent => exact ⟨hinside, fun _ hne => absurd hnone hne⟩
  | pending => exact ⟨walks_here rfl rfl, fun _ hne => absurd hnone hne⟩

theorem Branches.paces (h : l.Branches result) : l.Paces result := by
  cases h with
  | gives hcomes hgives =>
    obtain ⟨hwalks, hbrackets⟩ := hcomes.walks
    exact hgives.paces.of_walks hwalks hbrackets
  | lays hstart hlays => exact (hlays.paces hstart.brackets).of_walks (walks_pastBlank l) rfl

theorem walks_of_scan (h : l.scan = .ok (t, m)) : l.Walks m := by
  have hpaces := l.scan_branches.paces
  rw [h] at hpaces
  exact hpaces.1

/-- A fault stands where the scanner has walked to. -/
theorem stands_of_scan {fault : Fault} (h : l.scan = .error ((t, fault), m)) :
    ∃ k, l.Walks k ∧ t.offset = k.cursor.offset ∧ k.StandsAt fault.cause := by
  have hpaces := l.scan_branches.paces
  rwa [h] at hpaces

theorem Trace.walks (h : l.Trace ts m) : l.Walks m := by
  induction h with
  | refl => exact walks_here rfl rfl
  | step hl hscan hkind hlater ih => exact (walks_of_scan hscan).trans ih

end Lexer
end Stencil
