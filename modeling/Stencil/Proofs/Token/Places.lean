import Stencil.Proofs.Token.Seam

/-!
# The order of the tokens

The places of the tokens of a scan never go back, and a fault of the scan stands at or after all of
them. The brackets that are open after a token are known from those before it, so the tokens of a
source up to a place without open brackets are balanced.
-/
namespace Stencil

open Text (Cluster)
open List Lexeme Cursor

/-! ## Places -/

namespace Position

/-- A place is not after another one, in whichever files they are. -/
def NotAfter (p q : Position) : Prop :=
  p.line < q.line ∨ (p.line = q.line ∧ p.column ≤ q.column)

theorem NotAfter.refl (p : Position) : p.NotAfter p := .inr ⟨rfl, Int.le_refl _⟩

theorem NotAfter.trans {p q r : Position} (hpq : p.NotAfter q) (hqr : q.NotAfter r) :
    p.NotAfter r := by
  unfold NotAfter at *
  omega

end Position

namespace Cursor

def position (c : Cursor) : Position := ⟨"", c.line, c.column⟩

/-- The place of the first content of a line, by the start of the line. -/
def marginPosition (c : Cursor) : Position := ⟨"", c.line, c.column + (Lexeme.margin c.rest).1⟩

theorem notAfter_marginPosition (c : Cursor) : c.position.NotAfter c.marginPosition := by
  refine .inr ⟨rfl, ?_⟩
  simp only [position, marginPosition]
  omega

theorem notAfter_step (c : Cursor) : c.position.NotAfter c.step.position := by
  obtain ⟨rest, line, column, offset⟩ := c
  cases rest with
  | nil => exact .refl _
  | cons k ks =>
    by_cases hk : k.lead = '\n'
    · rw [step, if_pos hk]
      refine .inl ?_
      simp only [position]
      omega
    · rw [step, if_neg hk]
      refine .inr ⟨rfl, ?_⟩
      simp only [position]
      omega

theorem notAfter_skip (n : Nat) (c : Cursor) : c.position.NotAfter (c.skip n).position := by
  induction n generalizing c with
  | zero => exact .refl _
  | succ n ih => exact (notAfter_step c).trans (ih c.step)

/-- The spaces in front of a line reach to its margin. -/
theorem marginPosition_notAfter (c : Cursor) :
    c.marginPosition.NotAfter c.skipSpaces.position := by
  have hspaces : ∀ (ks : List Cluster) (line column offset : Nat),
      (skip (ks.takeWhile (·.lead = ' ')).length ⟨ks, line, column, offset⟩).line = line ∧
        column + (margin ks).1 ≤
          (skip (ks.takeWhile (·.lead = ' ')).length ⟨ks, line, column, offset⟩).column := by
    intro ks
    induction ks with
    | nil => exact fun line column offset => ⟨rfl, Nat.le_refl _⟩
    | cons k ks ih =>
      intro line column offset
      by_cases hk : k.lead = ' '
      · have hline : k.lead ≠ '\n' := by
          rw [hk]
          decide
        obtain ⟨hlast, hle⟩ := ih line (column + 1) (offset + k.size)
        have hmargin : (margin (k :: ks)).1 ≤ (margin ks).1 + 1 := by
          rw [margin]
          split
          · split <;> simp only <;> omega
          · exact Nat.zero_le _
        rw [takeWhile_cons_of_pos (by rw [hk]; rfl), length_cons, skip, step, if_neg hline]
        exact ⟨hlast, by omega⟩
      · have hmargin : (margin (k :: ks)).1 = 0 := by
          rw [margin, if_neg]
          intro hfirst
          refine hk ?_
          rw [Cluster.lead_of_first (by rw [hfirst]; decide), hfirst]
        rw [takeWhile_cons_of_neg (by rw [decide_eq_true_eq]; exact hk), hmargin]
        exact ⟨rfl, Nat.le_refl _⟩
  obtain ⟨hline, hcolumn⟩ := hspaces c.rest c.line c.column c.offset
  refine .inr ⟨?_, ?_⟩
  · exact congrArg Int.ofNat hline.symm
  · simp only [position, marginPosition]
    exact_mod_cast hcolumn

end Cursor

/-! ## Brackets -/

/-- The brackets that are open after a token, by those before it. Innermost brackets come first. -/
def TokenKind.nest : List Bracket → TokenKind → Option (List Bracket)
  | outer, .opening b => some (b :: outer)
  | top :: outer, .closing b => if top = b then some outer else none
  | [], .closing _ => none
  | outer, _ => some outer

/-- Every bracket of the tokens is closed by one of its kind, in the right order. -/
def areBalanced (ts : List Token) : Bool := (ts.map (·.kind)).foldlM TokenKind.nest [] = some []

theorem nest_of_operator {c : Char} {next : Option Char} {kind : TokenKind} {length : Nat}
    (h : operator c next = some (kind, length)) (outer : List Bracket) :
    kind.nest outer = some outer := by
  unfold operator at h
  dsimp only at h
  split at h <;> (try split at h) <;> cases h <;> cases outer <;> rfl

namespace Lexer

variable {l m : Lexer} {t : Token} {ts : List Token} {p : Position} {k : Cluster}
  {rest : List Cluster} {result : Scanned} {kind : TokenKind}

/-- No token to come stands before the place. On a line that still closes levels, tokens already
stand at its margin. -/
def IsPast (l : Lexer) (p : Position) : Prop :=
  p.NotAfter l.cursor.position ∨
    (p.NotAfter l.cursor.marginPosition ∧
      (l.cursor.column = 1 ∧ l.brackets = []) ∧ Lexeme.blankLines l.cursor.rest = 0)

/-- A token that is not before a place, and the scanner after the token. -/
structure Places (l : Lexer) (p : Position) (t : Token) (m : Lexer) : Prop where
  brackets : t.kind.nest l.brackets = some m.brackets
  place : p.NotAfter (t.position "")
  later : m.IsPast (t.position "")

def Orders (l : Lexer) (p : Position) : Scanned → Prop
  | .ok (t, m) => l.Places p t m
  | .error ((t, fault), _) => p.NotAfter (t.position "") ∧ fault.position = t.position l.file

theorem Orders.of_eq (h : m.Orders p result) (hfile : m.file = l.file)
    (hbrackets : m.brackets = l.brackets) : l.Orders p result := by
  cases result with
  | ok result => exact ⟨hbrackets ▸ h.brackets, h.place, h.later⟩
  | error failure => exact ⟨h.1, hfile ▸ h.2⟩

/-- A token at the cursor after which the scanner goes on from there. -/
theorem places_here {literal : String} (h : p.NotAfter l.cursor.position)
    (hbrackets : kind.nest l.brackets = some m.brackets) {n : Nat}
    (hcursor : m.cursor = l.cursor.skip n) : l.Places p (l.token kind literal) m where
  brackets := hbrackets
  place := h
  later := .inl (by rw [hcursor]; exact notAfter_skip n l.cursor)

/-- Only brackets open and close brackets. -/
theorem nest_of_other (hopening : ∀ b, kind ≠ .opening b) (hclosing : ∀ b, kind ≠ .closing b)
    (outer : List Bracket) : kind.nest outer = some outer := by
  cases kind with
  | opening b => exact absurd rfl (hopening b)
  | closing b => exact absurd rfl (hclosing b)
  | _ => cases outer <;> rfl

theorem Takes.orders (h : l.Takes k rest result) (hp : p.NotAfter l.cursor.position) :
    l.Orders p result := by
  cases h with
  | unterminated | unmatched | unexpected => exact ⟨hp, rfl⟩
  | opening => exact places_here (n := 1) hp rfl rfl
  | closing _ hbrackets =>
    refine places_here (n := 1) hp ?_ rfl
    rw [hbrackets, TokenKind.nest, if_pos rfl]
  | string | styleWord | number =>
    exact places_here hp (nest_of_other (fun _ => TokenKind.noConfusion)
      (fun _ => TokenKind.noConfusion) _) rfl
  | word =>
    refine places_here hp ?_ rfl
    rcases ofWord_cases (Cluster.text (l.cursor.rest.take
      (Lexeme.run isNamePart l.cursor.rest))) with hword | ⟨k, hword⟩ <;> rw [hword] <;>
      exact nest_of_other (fun _ => TokenKind.noConfusion) (fun _ => TokenKind.noConfusion) _
  | sign _ hsign => exact places_here hp (nest_of_operator hsign _) rfl

theorem Gives.orders (h : l.Gives result) (hp : p.NotAfter l.cursor.position) :
    l.Orders p result := by
  cases h with
  | lastLine | lastLevel | eof =>
    exact places_here (n := 0) hp (nest_of_other (fun _ => TokenKind.noConfusion)
      (fun _ => TokenKind.noConfusion) _) rfl
  | newline =>
    exact places_here hp (nest_of_other (fun _ => TokenKind.noConfusion)
      (fun _ => TokenKind.noConfusion) _) rfl
  | cluster _ _ htakes => exact htakes.orders hp

theorem Lays.orders (h : l.Lays result) (hp : p.NotAfter l.cursor.marginPosition)
    (hcolumn : l.cursor.column = 1) (hbrackets : l.brackets = [])
    (hblank : blankLines l.cursor.rest = 0) : l.Orders p result := by
  have hinside : p.NotAfter l.pastMargin.cursor.position :=
    hp.trans (marginPosition_notAfter l.cursor)
  have hnest : ∀ kind ∈ [TokenKind.indent, .dedent], kind.nest l.brackets = some l.brackets := by
    intro kind hkind
    rw [hbrackets]
    revert kind
    decide
  cases h with
  | tab | uneven => exact ⟨hinside, rfl⟩
  | indent => exact ⟨hnest .indent (by decide), hinside, .inl (.refl _)⟩
  | dedent => exact ⟨hnest .dedent (by decide), hinside, .inl (.refl _)⟩
  | pending =>
    -- The line ends more levels and the scanner stays at its start.
    have hplace : Token.position ⟨.dedent, "", l.cursor.line, (margin l.cursor.rest).1 + 1,
        l.cursor.offset + (margin l.cursor.rest).1⟩ "" = l.cursor.marginPosition := by
      simp only [Token.position, marginPosition, hcolumn, Position.mk.injEq, true_and]
      omega
    exact ⟨hnest .dedent (by decide), hplace ▸ hp,
      .inr ⟨hplace ▸ .refl _, ⟨hcolumn, hbrackets⟩, hblank⟩⟩

theorem IsPast.pastBlank (h : l.IsPast p) : p.NotAfter l.pastBlank.cursor.marginPosition := by
  rcases h with hcursor | ⟨hmargin, -, hblank⟩
  · exact (hcursor.trans (notAfter_skip _ _)).trans (notAfter_marginPosition _)
  · rw [pastBlank_of_zero hblank]
    exact hmargin

theorem IsPast.comes (h : l.IsPast p) (hm : l.Comes m) : p.NotAfter m.cursor.position := by
  cases hm with
  | inside hinside =>
    refine Position.NotAfter.trans ?_ (notAfter_skip _ _)
    rcases h with hcursor | ⟨-, hline, -⟩
    · exact hcursor
    · exact absurd hline hinside
  | ending _ _ hrest =>
    have hpast := h.pastBlank
    rwa [marginPosition, hrest] at hpast
  | line =>
    exact (h.pastBlank.trans (marginPosition_notAfter _)).trans (notAfter_skip _ _)

theorem IsPast.orders (h : l.IsPast p) (hbranches : l.Branches result) : l.Orders p result := by
  cases hbranches with
  | gives hcomes hgives =>
    have horders := hgives.orders (h.comes hcomes)
    obtain ⟨n, rfl⟩ := hcomes.exists_skip
    exact horders.of_eq rfl rfl
  | lays hstart hlays =>
    exact (hlays.orders h.pastBlank hstart.column_pastBlank hstart.brackets
      (blankLines_pastBlank l)).of_eq rfl rfl

theorem places_of_scan (h : l.IsPast p) (hscan : l.scan = .ok (t, m)) : l.Places p t m := by
  have horders := h.orders l.scan_branches
  rwa [hscan] at horders

theorem isPast_cursor (l : Lexer) : l.IsPast l.cursor.position := .inl (.refl _)

/-- The brackets after tokens, by those before them. -/
theorem Trace.brackets (h : l.Trace ts m) :
    (ts.map (·.kind)).foldlM TokenKind.nest l.brackets = some m.brackets := by
  induction h with
  | refl l => rfl
  | @step l m n t ts hl hscan hkind hlater ih =>
    rw [map_cons, foldlM_cons, (places_of_scan l.isPast_cursor hscan).brackets]
    exact ih

/-- A fault that ends a scan is at its error token, and no token is after it. -/
theorem run_fault (budget : Nat) (hl : l.fault = none) (h : l.IsPast p) {fault : Fault}
    (hend : (l.run budget).ending = .fault t fault) :
    (t.position "").NotAfter fault.position ∧ p.NotAfter fault.position ∧
      ∀ u ∈ (l.run budget).tokens, (u.position "").NotAfter fault.position := by
  induction budget generalizing l p with
  | zero => cases hend
  | succ budget ih =>
    rw [run] at hend ⊢
    rcases next_cases l with ⟨failure, hfault, -⟩ | ⟨u, m, -, hscan, hnext⟩ | ⟨u, found, m, -, hscan, hnext⟩
    · rw [hl] at hfault
      cases hfault
    · have hm : m.fault = none := (fault_of_scan hscan).trans hl
      obtain ⟨-, hplace, hlater⟩ := places_of_scan h hscan
      rw [hnext] at hend ⊢
      dsimp only at hend ⊢
      rw [hm] at hend ⊢
      dsimp only at hend ⊢
      split at hend
      · cases hend
      · next hkind =>
        rw [if_neg hkind]
        rw [← hm] at hend ⊢
        obtain ⟨hend, hu, htokens⟩ := ih (l := { m with last := u.kind }) hm hlater hend
        exact ⟨hend, hplace.trans hu, forall_mem_cons.mpr ⟨hu, htokens⟩⟩
    · have horders := h.orders l.scan_branches
      rw [hscan] at horders
      rw [hnext] at hend ⊢
      obtain ⟨rfl, rfl⟩ := Ending.fault.inj hend
      have hsame : (u.position "").NotAfter found.position := by
        rw [horders.2]
        exact .refl _
      exact ⟨hsame, horders.1.trans hsame, fun v hv => by cases hv⟩

end Lexer

/-- A fault that ends a scan is not before any token. -/
theorem Scan.notAfter_fault {file source : String} {t : Token} {fault : Fault}
    (h : (Scan.of file source).ending = .fault t fault) :
    ∀ u ∈ (Scan.of file source).all, (u.position file).NotAfter fault.position := by
  obtain ⟨hend, -, htokens⟩ := Lexer.run_fault _ rfl (Lexer.isPast_cursor _) h
  intro u hu
  rcases mem_append.mp hu with htoken | hlast
  · exact htokens u htoken
  · rw [mem_singleton.mp hlast, h]
    exact hend

end Stencil
