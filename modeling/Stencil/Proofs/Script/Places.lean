import Stencil.Proofs.Script.Quoting
import Stencil.Script.Text

/-!
# Expressions at their places

The printer asks for a rank at each place and puts an expression that binds looser in parentheses.
The reader joins what clings together. `Level.grip` and `Level.hold` match the two: they tell what
strength the reader meets inside a bare text of a level, and what may follow it.

`Reads` says what reading the bare text of one expression comes to. From it follows what reading the
same expression comes to at a place of any rank, bare or in parentheses.
-/
namespace Stencil.Script

open List

/-- Operators that have a symbol. -/
def Operator.isKnown : Operator → Bool
  | .arith _ | .relation _ => true
  | .otherArith | .otherRelation => false

def paramsProper (params : List (String × Option Expr)) : Bool := params.all (isFreeName ·.1)

mutual

/-- Trees without gaps whose names, numbers and operators can be written down. -/
def Expr.isProper : Expr → Bool
  | .string _ => true
  | .number digits => isNumeral digits
  | .name name => isFreeName name
  | .object properties => propertiesProper properties
  | .list items => itemsProper items
  | .attribute object name => object.isProper && isFreeName name
  | .item object index => object.isProper && index.isProper
  | .call function arguments => function.isProper && itemsProper arguments
  | .new operand | .not operand => operand.isProper
  | .and left right | .or left right => left.isProper && right.isProper
  | .operation op left right => op.isKnown && left.isProper && right.isProper
  | .function name params body =>
    (name.isEmpty || isFreeName name) && paramsProper params && bodyProper body
  | .assign object name value => object.isProper && isFreeName name && value.isProper
  | .ternary condition chosen otherwise =>
    condition.isProper && chosen.isProper && otherwise.isProper
  | .missing => false

/-- The name of a property may be any text. -/
def propertiesProper : List (String × Expr) → Bool
  | [] => true
  | (_, value) :: rest => value.isProper && propertiesProper rest

def itemsProper : List Expr → Bool
  | [] => true
  | item :: rest => item.isProper && itemsProper rest

def Stmt.isProper : Stmt → Bool
  | .expr value | .ret value => value.isProper
  | .var name value => isFreeName name && value.isProper
  | .function name params body => isFreeName name && paramsProper params && bodyProper body
  | .missing => false

def bodyProper : List Stmt → Bool
  | [] => true
  | s :: rest => s.isProper && bodyProper rest

end

def eraseParams (params : List (String × Option Expr)) : List (String × Option Expr) :=
  params.map fun p => (p.1, none)

mutual

/-- The tree without the default values of parameters. -/
def Expr.erase : Expr → Expr
  | .string value => .string value
  | .number digits => .number digits
  | .name name => .name name
  | .object properties => .object (eraseProperties properties)
  | .list items => .list (eraseItems items)
  | .attribute object name => .attribute object.erase name
  | .item object index => .item object.erase index.erase
  | .call function arguments => .call function.erase (eraseItems arguments)
  | .new operand => .new operand.erase
  | .not operand => .not operand.erase
  | .and left right => .and left.erase right.erase
  | .or left right => .or left.erase right.erase
  | .operation op left right => .operation op left.erase right.erase
  | .function name params body => .function name (eraseParams params) (eraseBody body)
  | .assign object name value => .assign object.erase name value.erase
  | .ternary condition chosen otherwise =>
    .ternary condition.erase chosen.erase otherwise.erase
  | .missing => .missing

def eraseProperties : List (String × Expr) → List (String × Expr)
  | [] => []
  | (key, value) :: rest => (key, value.erase) :: eraseProperties rest

def eraseItems : List Expr → List Expr
  | [] => []
  | item :: rest => item.erase :: eraseItems rest

def Stmt.erase : Stmt → Stmt
  | .expr value => .expr value.erase
  | .ret value => .ret value.erase
  | .var name value => .var name value.erase
  | .function name params body => .function name (eraseParams params) (eraseBody body)
  | .missing => .missing

def eraseBody : List Stmt → List Stmt
  | [] => []
  | s :: rest => s.erase :: eraseBody rest

end

/-- The characters of pieces, with margins of a width. -/
def layout (width : Nat) (pieces : List Piece) : List Char :=
  pieces.flatMap fun p => (p.print width).toList

namespace Layout

variable (width : Nat)

@[simp] theorem nil : layout width [] = [] := rfl

@[simp] theorem append (ps qs : List Piece) :
    layout width (ps ++ qs) = layout width ps ++ layout width qs := flatMap_append

@[simp] theorem text (t : String) (ps : List Piece) :
    layout width (.text t :: ps) = t.toList ++ layout width ps := rfl

@[simp] theorem newline (ps : List Piece) :
    layout width (.newline :: ps) = '\n' :: layout width ps := by
  simp [layout, Piece.print]

@[simp] theorem margin (depth : Nat) (ps : List Piece) :
    layout width (.margin depth :: ps) = replicate (depth * width) ' ' ++ layout width ps := by
  simp [layout, Piece.print]

theorem enclose_true (ps : List Piece) (s : List Char) :
    layout width (enclose true ps) ++ s = '(' :: (layout width ps ++ ')' :: s) := by
  simp [enclose]

end Layout

theorem Code.toList_text (width : Int) (code : Code) :
    (code.text width).toList = layout (indentWidth width) (bodyPieces 0 code) := by
  rw [Code.text, String.toList_join, flatMap_map]
  rfl

/-- The text of a whole expression, outside of any operator. -/
def Expr.bare (width depth : Nat) (e : Expr) : List Char := layout width (e.pieces depth 0)

/-- The text of an expression at a place that asks for a rank. -/
def Expr.shown (width depth rank : Nat) (e : Expr) : List Char :=
  layout width (e.pieces depth rank)

@[simp] theorem enclose_false (ps : List Piece) : enclose false ps = ps := rfl

theorem enclose_lowest (l : Level) (ps : List Piece) : enclose (l.rank < 0) ps = ps := by
  simp [enclose]

variable {rank : Nat}

theorem enclose_primary (hrank : rank ≤ 20) (ps : List Piece) :
    enclose (Level.primary.rank < rank) ps = ps := by
  have tight : ¬ Level.primary.rank < rank := by simp only [Level.rank]; omega
  simp [enclose, tight]

theorem Expr.pieces_eq_enclose (depth : Nat) (hrank : rank ≤ 20) (e : Expr) :
    e.pieces depth rank = enclose (e.level.rank < rank) (e.pieces depth 0) := by
  cases e with
  | string | number | name | ternary | missing => exact (enclose_primary hrank _).symm
  | object ps => rcases ps with _ | ⟨p, _ | ⟨q, ps⟩⟩ <;> exact (enclose_primary hrank _).symm
  | list xs => rcases xs with _ | ⟨x, _ | ⟨y, xs⟩⟩ <;> exact (enclose_primary hrank _).symm
  | function _ _ body => cases body <;> exact (enclose_primary hrank _).symm
  | _ =>
    simp only [Expr.pieces, enclose_lowest]
    rfl

theorem Expr.shown_eq (width depth : Nat) (hrank : rank ≤ 20) (e : Expr) (s : List Char) :
    e.shown width depth rank ++ s =
      if e.level.rank < rank then '(' :: (e.bare width depth ++ ')' :: s)
      else e.bare width depth ++ s := by
  unfold Expr.shown Expr.bare
  rw [Expr.pieces_eq_enclose depth hrank]
  by_cases h : e.level.rank < rank
  · simp only [h, decide_true, if_true]
    exact Layout.enclose_true width _ s
  · simp [h, enclose]

namespace Reader

/-- How tight the text in front clings to what stands before it: most if it is a suffix, with the
strength of a joint, or not at all. -/
def follow (s : List Char) : Nat :=
  match skip s with
  | '.' :: _ | '[' :: _ | '(' :: _ => 8
  | t =>
    match Joint.front t with
    | some (j, _) => j.strength
    | none => 0

variable {s t : List Char} {least : Nat}

theorem suffixes_stop (x : Expr) (h : follow s ≤ 7) : script.suffixes x s = some (x, s) := by
  unfold follow at h
  rw [Grammar.suffixes]
  split
  · next heq => simp [heq] at h
  · next heq => simp [heq] at h
  · next heq => simp [heq] at h
  · rfl

theorem follow_of_front {j : Joint} (h : Joint.front (skip s) = some (j, t)) :
    follow s = j.strength := by
  unfold follow
  split
  · next heq => simp [heq, Joint.front] at h
  · next heq => simp [heq, Joint.front] at h
  · next heq => simp [heq, Joint.front] at h
  · simp [h]

theorem climb_stop (x : Expr) (h : follow s < least ∨ follow s = 0) :
    script.climb least x s = some (x, s) := by
  rw [Grammar.climb]
  split
  · rfl
  · next j t hj =>
    have hf := follow_of_front hj
    have hpos : 0 < j.strength := by
      rcases j with _ | _ | _ | op | op <;> (try cases op) <;> decide
    have hlt : j.strength < least := by omega
    simp [hlt]

theorem operand_parenthesis {negation : Bool} {s t : List Char} (h : skip s = '(' :: t) :
    script.operand negation s = (script.parenthesis t).bind fun (x, s) => script.suffixes x s := by
  rw [Grammar.operand, h]
  rfl

/-- How an operand goes on behind a word. -/
def wordOperand (w : String) (s : List Char) : Option (Expr × List Char) :=
  if w = "new" then (script.operand false s).bind fun (x, s) => some (.new x, s)
  else if w = "function" then
    (script.function s).bind fun ((name, params, body), s) =>
      script.suffixes (.function name params body) s
  else if w ∈ script.reserved then none
  else script.suffixes (.name w) s

/-- An operand that starts with neither a sign, a bracket nor a quote. -/
theorem operand_plain {negation : Bool} {c : Char} (h : skip s = c :: t) (hc : isNamePart c) :
    script.operand negation s =
      if Text.isDigit c then
        script.suffixes (.number (String.ofList (number (c :: t)).1)) (number (c :: t)).2
      else (identifier (c :: t)).bind fun (w, s) => wordOperand w s := by
  rw [Grammar.operand, h]
  split
  case h_7 heq =>
    obtain ⟨rfl, rfl⟩ := cons.inj heq
    rfl
  case h_1 heq => cases heq
  all_goals
    next heq =>
    rw [(cons.inj heq).1] at hc
    exact absurd hc (by decide)

/-- The word in front decides how an operand is read. -/
theorem operand_front {w : String} (hw : isName w) {r : List Char}
    (hword : word (skip t) = (w, r)) (negation : Bool) :
    script.operand negation t = wordOperand w r := by
  obtain ⟨c, u, hc, hstart, _⟩ := isName_cases hw
  obtain ⟨hspace, hline, hdigit⟩ := isNameStart_ne hstart
  have hlist : (skip t).takeWhile isNamePart = c :: u := by
    rw [← hc, ← (Prod.mk.inj hword).1, String.toList_ofList]
  obtain ⟨v, hv⟩ : ∃ v, skip t = c :: v := by
    cases ht : skip t with
    | nil => rw [ht] at hlist; cases hlist
    | cons d v =>
      rw [ht, takeWhile_cons] at hlist
      split at hlist
      · exact ⟨v, by rw [(cons.inj hlist).1]⟩
      · cases hlist
  have hid : identifier (c :: v) = some (w, r) := by
    rw [hv] at hword
    simp [identifier, hstart, hword]
  rw [operand_plain hv (by simp [isNamePart, hstart]), if_neg (by simp [hdigit]), hid]
  rfl

theorem operand_word {w : String} (hw : isName w) (hs : clear s) (negation : Bool) :
    script.operand negation (w.toList ++ s) = wordOperand w s :=
  operand_front hw (by rw [skip_name hw, word_name hw hs]) negation

/-- A closing bracket starts no expression. -/
theorem operand_closing {negation : Bool} {c : Char} {s t : List Char} (h : skip s = c :: t)
    (hc : c = ')' ∨ c = ']' ∨ c = '}') : script.operand negation s = none := by
  rw [Grammar.operand, h]
  rcases hc with rfl | rfl | rfl <;> rfl

theorem expr_front {r : Expr × List Char} (h : script.expr least s = some r) :
    ∃ c t, skip s = c :: t ∧ c ≠ ')' ∧ c ≠ ']' ∧ c ≠ '}' := by
  rw [Grammar.expr] at h
  cases hs : skip s with
  | nil => rw [Grammar.operand, hs] at h; cases h
  | cons c t =>
    refine ⟨c, t, rfl, ?_, ?_, ?_⟩ <;> rintro rfl <;>
      rw [operand_closing hs (by simp)] at h <;> cases h

end Reader

namespace Level

/-- The strength of the joints of a level. -/
def grip : Level → Nat
  | .assign => 1
  | .or => 2
  | .and => 3
  | .equality => 4
  | .relational => 5
  | .additive => 6
  | .multiplicative => 7
  | _ => 8

/-- How tight the text behind an expression of a level may cling without being drawn into it. -/
def hold : Level → Nat
  | .assign => 0
  | .unary | .new => 7
  | l => l.grip

/-- Levels whose joints join to the left. -/
def isJoint : Level → Bool
  | .or | .and | .equality | .relational | .additive | .multiplicative => true
  | _ => false

end Level

/-- A place of a rank keeps an expression of a level together, where joints of at least a strength
are read and the text behind clings so much. -/
def Fits (rank : Nat) (l : Level) (least cling : Nat) : Prop :=
  l.rank < rank ∨ (least ≤ l.grip ∧ cling ≤ l.hold)

namespace Fits

variable {least cling : Nat} {k : Level}

theorem mono {rank rank' : Nat} {l : Level} (h : Fits rank l least cling) (hrank : rank ≤ rank') :
    Fits rank' l least cling :=
  h.imp (fun h => Nat.lt_of_lt_of_le h hrank) id

theorem left (hk : k.isJoint) (l : Level) (h : least ≤ k.grip) : Fits k.rank l least k.grip := by
  have table : l.rank < k.rank ∨ (k.grip ≤ l.grip ∧ k.grip ≤ l.hold) := by
    revert hk
    cases k <;> cases l <;> decide
  exact table.imp id (fun t => ⟨Nat.le_trans h t.1, t.2⟩)

theorem right (hk : k.isJoint) (l : Level) (h : cling ≤ k.grip) :
    Fits (k.rank + 1) l (k.grip + 1) cling := by
  have table : l.rank < k.rank + 1 ∨ (k.grip + 1 ≤ l.grip ∧ k.grip ≤ l.hold) := by
    revert hk
    cases k <;> cases l <;> decide
  exact table.imp id (fun t => ⟨t.1, Nat.le_trans h t.2⟩)

/-- In brackets, between commas and at the end of a statement nothing clings. -/
theorem open_place (rank : Nat) (l : Level) : Fits rank l 0 0 :=
  Or.inr ⟨Nat.zero_le _, Nat.zero_le _⟩

end Fits

namespace Reader

/-- A function in front, read as one, is not the last word of its line. -/
def Unbroken (t : List Char) : Prop :=
  ∀ s f r, word (skip t) = ("function", s) → script.function s = some (f, r) → r.head? ≠ some '\n'

/-- What reading the bare text of an expression comes to, by the reader that gets it. -/
structure Reads (width : Nat) (e : Expr) : Prop where
  whole : ∀ depth least s, clear s = true → least ≤ e.level.grip → follow s ≤ e.level.hold →
    follow s ≤ 7 → script.expr least (e.bare width depth ++ s) = script.climb least e.erase s
  unary : 14 ≤ e.level.rank → ∀ depth s, clear s = true → follow s ≤ 7 →
    script.operand true (e.bare width depth ++ s) = some (e.erase, s)
  new : 17 ≤ e.level.rank → ∀ depth negation s, clear s = true → follow s ≤ 7 →
    script.operand negation (e.bare width depth ++ s) = some (e.erase, s)
  chain : 18 ≤ e.level.rank → ∀ depth negation s, clear s = true →
    script.operand negation (e.bare width depth ++ s) = script.suffixes e.erase s
  unbroken : ∀ depth s, clear s = true → s.head? ≠ some '\n' →
    Unbroken (e.bare width depth ++ s)

namespace Reads

variable {width rank : Nat} {e : Expr} {s : List Char}

section Levels

variable (unbroken : ∀ depth s, clear s → s.head? ≠ some '\n' →
  Unbroken (e.bare width depth ++ s))

include unbroken

theorem joint_level (hlevel : e.level.rank ≤ 12)
    (whole : ∀ depth least s, clear s → least ≤ e.level.grip → follow s ≤ e.level.hold →
      follow s ≤ 7 → script.expr least (e.bare width depth ++ s) = script.climb least e.erase s) :
    Reads width e where
  whole := whole
  unary h := by omega
  new h := by omega
  chain h := by omega
  unbroken := unbroken

theorem unary_level (hlevel : e.level.rank = 14) (unary : ∀ depth s, clear s → follow s ≤ 7 →
      script.operand true (e.bare width depth ++ s) = some (e.erase, s)) : Reads width e where
  whole depth least s hs _ _ h7 := by rw [Grammar.expr, unary depth s hs h7]; rfl
  unary _ := unary
  new h := by omega
  chain h := by omega
  unbroken := unbroken

theorem new_level (hlevel : e.level.rank = 17) (new : ∀ depth negation s, clear s → follow s ≤ 7 →
      script.operand negation (e.bare width depth ++ s) = some (e.erase, s)) : Reads width e where
  whole depth least s hs _ _ h7 := by rw [Grammar.expr, new depth true s hs h7]; rfl
  unary _ depth s hs h7 := new depth true s hs h7
  new _ := new
  chain h := by omega
  unbroken := unbroken

theorem chain_level (chain : ∀ depth negation s, clear s →
      script.operand negation (e.bare width depth ++ s) = script.suffixes e.erase s) :
    Reads width e where
  whole depth least s hs _ _ h7 := by
    rw [Grammar.expr, chain depth true s hs, suffixes_stop _ h7]
    rfl
  unary _ depth s hs h7 := by rw [chain depth true s hs, suffixes_stop _ h7]
  new _ depth negation s hs h7 := by rw [chain depth negation s hs, suffixes_stop _ h7]
  chain _ := chain
  unbroken := unbroken

end Levels

/-- In brackets the whole expression is read, up to the bracket. -/
theorem inside (h : Reads width e) (depth : Nat) (hs : clear s) (hf : follow s = 0) :
    script.expr 0 (e.bare width depth ++ s) = some (e.erase, s) := by
  rw [h.whole depth 0 s hs (Nat.zero_le _) (by omega) (by omega)]
  exact climb_stop _ (Or.inr hf)

/-- Parentheses only group. The text in them may start with a parenthesis of its own; it is then no
conditional, because the expression goes on behind it up to the closing parenthesis. -/
theorem group (h : Reads width e) (depth : Nat) (s : List Char) :
    script.parenthesis (e.bare width depth ++ ')' :: s) = some (e.erase, s) := by
  have hin : script.expr 0 (e.bare width depth ++ ')' :: s) = some (e.erase, ')' :: s) :=
    h.inside depth rfl rfl
  have hclose : symbol ')' (')' :: s) = some s := rfl
  generalize e.bare width depth ++ ')' :: s = t at hin
  rw [Grammar.parenthesis]
  split
  · next t' ht =>
    rw [Grammar.expr, operand_parenthesis ht] at hin
    obtain ⟨⟨y, s2⟩, hoperand, hclimb⟩ := Option.bind_eq_some_iff.mp hin
    obtain ⟨⟨x, s1⟩, hpar, hsuffixes⟩ := Option.bind_eq_some_iff.mp hoperand
    change script.climb 0 y s2 = _ at hclimb
    change script.suffixes x s1 = _ at hsuffixes
    have hquestion : ∀ r, skip s1 ≠ '?' :: r := by
      intro r hr
      have hf : follow s1 = 0 := by simp [follow, hr, Joint.front]
      have hx := hsuffixes.symm.trans (suffixes_stop x (by omega))
      obtain ⟨rfl, rfl⟩ := Prod.mk.inj (Option.some.inj hx)
      have hstop := hclimb.symm.trans (climb_stop y (Or.inr hf))
      obtain ⟨-, rfl⟩ := Prod.mk.inj (Option.some.inj hstop)
      exact absurd (cons.inj hr).1 (by decide)
    simp only [hpar, hsuffixes, hclimb, hclose, Option.bind_eq_bind, Option.bind_some]
  · simp [hin, hclose]

/-- The text at a place of a rank: bare, if the expression binds tight enough, or in parentheses. -/
theorem shown_cases (width depth : Nat) (hrank : rank ≤ 20) (e : Expr) (s : List Char) :
    (rank ≤ e.level.rank ∧ e.shown width depth rank ++ s = e.bare width depth ++ s) ∨
    (e.level.rank < rank ∧
      e.shown width depth rank ++ s = '(' :: (e.bare width depth ++ ')' :: s)) := by
  rw [Expr.shown_eq width depth hrank]
  by_cases h : e.level.rank < rank
  · exact Or.inr ⟨h, if_pos h⟩
  · exact Or.inl ⟨Nat.le_of_not_lt h, if_neg h⟩

theorem operand_wrapped (h : Reads width e) (depth : Nat) (negation : Bool) (s : List Char) :
    script.operand negation ('(' :: (e.bare width depth ++ ')' :: s)) =
      script.suffixes e.erase s := by
  rw [operand_parenthesis (skip_cons (by decide) (by decide) _), h.group]
  rfl

theorem shown_chain (h : Reads width e) (hlow : 18 ≤ rank) (hrank : rank ≤ 20) (depth : Nat)
    (negation : Bool) (hs : clear s) :
    script.operand negation (e.shown width depth rank ++ s) = script.suffixes e.erase s := by
  rcases shown_cases width depth hrank e s with ⟨hl, ht⟩ | ⟨_, ht⟩
  · rw [ht, h.chain (by omega) depth negation s hs]
  · rw [ht, h.operand_wrapped]

theorem shown_new (h : Reads width e) (hlow : 17 ≤ rank) (hrank : rank ≤ 20) (depth : Nat)
    (negation : Bool) (hs : clear s) (h7 : follow s ≤ 7) :
    script.operand negation (e.shown width depth rank ++ s) = some (e.erase, s) := by
  rcases shown_cases width depth hrank e s with ⟨hl, ht⟩ | ⟨_, ht⟩
  · rw [ht, h.new (by omega) depth negation s hs h7]
  · rw [ht, h.operand_wrapped, suffixes_stop _ h7]

theorem shown_unary (h : Reads width e) (hlow : 14 ≤ rank) (hrank : rank ≤ 20) (depth : Nat)
    (hs : clear s) (h7 : follow s ≤ 7) :
    script.operand true (e.shown width depth rank ++ s) = some (e.erase, s) := by
  rcases shown_cases width depth hrank e s with ⟨hl, ht⟩ | ⟨_, ht⟩
  · rw [ht, h.unary (by omega) depth s hs h7]
  · rw [ht, h.operand_wrapped, suffixes_stop _ h7]

theorem shown_whole (h : Reads width e) {least : Nat} (hrank : rank ≤ 20) (depth : Nat)
    (hs : clear s) (hfit : Fits rank e.level least (follow s)) (h7 : follow s ≤ 7) :
    script.expr least (e.shown width depth rank ++ s) = script.climb least e.erase s := by
  rcases shown_cases width depth hrank e s with ⟨hl, ht⟩ | ⟨_, ht⟩
  · rcases hfit with hlt | ⟨hgrip, hhold⟩
    · omega
    · rw [ht, h.whole depth least s hs hgrip hhold h7]
  · rw [ht, Grammar.expr, h.operand_wrapped, suffixes_stop _ h7]
    rfl

/-- Between commas and at the end of a statement the whole expression is read. -/
theorem shown_inside (h : Reads width e) (hrank : rank ≤ 20) (depth : Nat) (hs : clear s)
    (hf : follow s = 0) : script.expr 0 (e.shown width depth rank ++ s) = some (e.erase, s) := by
  rw [h.shown_whole hrank depth hs (by rw [hf]; exact Fits.open_place rank _) (by omega)]
  exact climb_stop _ (Or.inr hf)

theorem unbroken_of_front {c : Char} (hs : c ≠ ' ') (hn : c ≠ '\n') (hf : c ≠ 'f')
    (t : List Char) : Unbroken (c :: t) := by
  intro s f r hword _
  rw [skip_cons hs hn] at hword
  have hw : (c :: t).takeWhile isNamePart = "function".toList := by
    rw [← (Prod.mk.inj hword).1, String.toList_ofList]
  rw [takeWhile_cons] at hw
  split at hw
  · exact absurd (cons.inj hw).1 hf
  · cases hw

theorem shown_unbroken (h : Reads width e) (hrank : rank ≤ 20) (depth : Nat) (hs : clear s)
    (hb : s.head? ≠ some '\n') : Unbroken (e.shown width depth rank ++ s) := by
  rcases shown_cases width depth hrank e s with ⟨_, ht⟩ | ⟨_, ht⟩
  · rw [ht]
    exact h.unbroken depth s hs hb
  · rw [ht]
    exact unbroken_of_front (by decide) (by decide) (by decide) _

/-- An operand that a character of its own starts. -/
theorem chain_of_front {c : Char} (hs : c ≠ ' ') (hn : c ≠ '\n') (hf : c ≠ 'f')
    (h : ∀ depth s, ∃ t, e.bare width depth ++ s = c :: t ∧ (clear s → ∀ negation,
      script.operand negation (c :: t) = script.suffixes e.erase s)) : Reads width e := by
  apply chain_level
  · intro depth s _ _
    obtain ⟨t, ht, -⟩ := h depth s
    rw [ht]
    exact unbroken_of_front hs hn hf t
  · intro depth negation s hclear
    obtain ⟨t, ht, hread⟩ := h depth s
    rw [ht, hread hclear]

/-- An operand with one more suffix. -/
theorem chain_of_suffix {x : Expr} (hx : Reads width x)
    (h : ∀ depth s, ∃ t, e.bare width depth ++ s = x.shown width depth 18 ++ t ∧
      clear t ∧ t.head? ≠ some '\n' ∧
      (clear s → script.suffixes x.erase t = script.suffixes e.erase s)) :
    Reads width e := by
  apply chain_level
  · intro depth s _ _
    obtain ⟨t, ht, hclear, hline, -⟩ := h depth s
    rw [ht]
    exact hx.shown_unbroken (by decide) depth hclear hline
  · intro depth negation s hs
    obtain ⟨t, ht, hclear, -, hread⟩ := h depth s
    rw [ht, hx.shown_chain (by decide) (by decide) depth negation hclear, hread hs]

end Reads

end Reader

end Stencil.Script
