import Stencil.Proofs.Expr.Levels
import Stencil.Proofs.Expr.Splitting

/-!
# Reading what is written

The tokens that an expression is written with are read as that expression, by the reader of any
level that it is written for. Brackets nest less deep than there are tokens, and how the texts of
its strings fall into segments is left open.
-/
namespace Stencil

open Written (marks enclose encloseIf)
open List

/-- An operator with its operands. -/
theorem Stands.joined {ts : List Token} {kind : TokenKind} {text : String}
    {left right : List Written} (h : Stands ts (joined (.mark kind text) left right)) :
    ∃ tl t tr, ts = tl ++ t :: tr ∧ t.kind = kind ∧ Stands tl left ∧ Stands tr right := by
  obtain ⟨front, tr, rfl, hfront, hright⟩ := append h
  obtain ⟨tl, middle, rfl, hleft, hmiddle⟩ := append hfront
  obtain ⟨t, rfl, hkind, -⟩ := (blank hmiddle).single
  exact ⟨tl, t, tr, by simp, hkind, hleft, hright⟩

/-! ## What stands in front -/

open Stencil.Expr (leading)

/-- The line does not start with a closing bracket, nor with the word of a level looser than `k`. -/
def Front (k : Nat) (ws : List Written) : Prop :=
  ∃ m ms, marks ws = m :: ms ∧ (∀ b, m.1 ≠ .closing b) ∧
    ∀ i < k, ∀ word, leading i = some word → m.1 ≠ .keyword word

namespace Front

variable {k j : Nat} {ws : List Written} {kind : TokenKind}

theorem append (h : Front k ws) (ws' : List Written) : Front k (ws ++ ws') := by
  obtain ⟨m, ms, hws, hm⟩ := h
  refine ⟨m, ms ++ marks ws', ?_, hm⟩
  rw [marks, filterMap_append, ← marks, hws]
  rfl

theorem single (text : String) (hclosing : ∀ b, kind ≠ .closing b)
    (hword : ∀ i < k, ∀ word, leading i = some word → kind ≠ .keyword word) (ws : List Written) :
    Front k (.mark kind text :: ws) :=
  ⟨(kind, text), marks ws, rfl, hclosing, hword⟩

/-- A token that is no word and no closing bracket. -/
theorem plain {text : String} (hclosing : ∀ b, kind ≠ .closing b)
    (hword : ∀ word, kind ≠ .keyword word) : Front k (.mark kind text :: ws) :=
  single text hclosing (fun _ _ word _ => hword word) ws

theorem enclose (b : Bracket) (ws : List Written) : Front k (enclose b ws) :=
  plain (by simp) (by simp)

theorem encloseIf (h : Front k ws) : Front j (encloseIf (k < j) ws) := by
  rw [Written.encloseIf]
  split
  · exact enclose .paren ws
  · next hkj =>
    obtain ⟨m, ms, hws, hclosing, hword⟩ := h
    refine ⟨m, ms, hws, hclosing, fun i hi => hword i ?_⟩
    rw [decide_eq_true_eq] at hkj
    omega

theorem of_stands {ts : List Token} (h : Front k ws) (hts : Stands ts ws) :
    ∃ t rest, ts = t :: rest ∧ (∀ b, t.kind ≠ .closing b) ∧
      ∀ i < k, ∀ word, leading i = some word → t.kind ≠ .keyword word := by
  obtain ⟨m, ms, hws, hm⟩ := h
  obtain ⟨t, rest, rfl, rfl, -⟩ := map_eq_cons_iff.mp (hts.map_mark.trans hws)
  exact ⟨t, rest, rfl, hm⟩

end Front

theorem ArithOp.rank_le (op : ArithOp) : op.rank ≤ 8 := by
  cases op <;> decide

namespace Expr

/-- Parentheses stand just where the level of the expression is too loose. -/
theorem written_eq (e : Expr) {least : Nat} (hleast : least ≤ 8) :
    e.written least = encloseIf (e.rank < least) (e.written 0) := by
  have hatom : ∀ ws, encloseIf (8 < least) ws = ws := fun ws =>
    if_neg (by rw [decide_eq_true_eq]; omega)
  cases e with
  | name | string | number | format | dictionary | list => exact (hatom _).symm
  | _ => rfl

theorem rank_le (e : Expr) : e.rank ≤ 8 := by
  cases e with
  | arithmetic p op left right => exact op.rank_le
  | _ => all_goals simp [rank]

/-- An operand stands in front, or the word of the level. -/
theorem front_own (e : Expr) : Front e.rank (e.written 0) := by
  have hspine : ∀ (x : Expr) k, k ≤ 8 → Front x.rank (x.written 0) → Front k (x.written k) := by
    intro x k hk hx
    rw [x.written_eq hk]
    exact hx.encloseIf
  have hlead : ∀ (word : Keyword) (k : Nat) (ws : List Written),
      (∀ i < k, leading i ≠ some word) → Front k (Written.word word :: ws) := by
    intro word k ws hword
    refine Front.single _ (by simp) (fun i hi other hother heq => ?_) ws
    cases heq
    exact hword i hi hother
  cases e with
  | name | string | number | format => exact Front.plain (by simp) (by simp)
  | dictionary | list => exact Front.enclose _ _
  | new p operand => exact hlead .new 6 _ (by decide)
  | not p operand => exact hlead .not 2 _ (by decide)
  | and p left right =>
    exact ((hspine left 1 (by decide) left.front_own).append _).append _
  | or p left right =>
    exact ((hspine left 0 (by decide) left.front_own).append _).append _
  | relation p op left right =>
    exact ((hspine left 3 (by decide) left.front_own).append _).append _
  | arithmetic p op left right =>
    exact ((hspine left op.rank op.rank_le left.front_own).append _).append _
  | «attribute» p object _ | item p object _ | call p object _ =>
    exact (hspine object 7 (by decide) object.front_own).append _

end Expr

/-! ## Readers of parts of a line -/

namespace Parser

open Stencil.Expr (Stops headKind)
open Written (listed)

variable {α β γ : Type} {p : Parser α} {r : Reading} {ends : TokenKind → Prop} {ws : List Written}
  {P : α → Prop} {ts tail : List Token} {kind : TokenKind} {xs : List α} {b : Bracket}

/-- Of tokens that stand as on the line just these are taken, in front of a token of certain
kinds. -/
def Reads (p : Parser α) (r : Reading) (ends : TokenKind → Prop) (ws : List Written)
    (P : α → Prop) : Prop :=
  ∀ ts tail, Stands ts ws → ends (headKind r tail) →
    p.Yields r (ts ++ tail) fun a rest => P a ∧ rest = tail

theorem Reads.bind (h : p.Reads r ends ws P) (hts : Stands ts ws) (htail : ends (headKind r tail))
    {f : α → Parser β} {Q : β → List Token → Prop} (hf : ∀ a, P a → (f a).Yields r tail Q) :
    (p >>= f).Yields r (ts ++ tail) Q :=
  .bind ((h ts tail hts htail).leaves hf)

/-- There are more rounds than tokens in front. -/
theorem Yields.bounded_append {loop : Nat → Parser α} {Q : α → List Token → Prop}
    (h : ∀ rounds, ts.length < rounds → (loop rounds).Yields r (ts ++ tail) Q) :
    (Parser.bounded loop).Yields r (ts ++ tail) Q := by
  refine .bounded (h _ ?_)
  rw [length_append]
  omega

theorem headKind_cons (r : Reading) (t : Token) (ts : List Token) :
    headKind r (t :: ts) = t.kind :=
  rfl

/-- The token in front ends an expression if its kind does. -/
theorem stops_cons {t : Token} (ht : t.kind = kind) (h : Stops 0 kind) :
    Stops 0 (headKind r (t :: ts)) := by
  rwa [headKind_cons, ht]

/-! ### Items with commas between them -/

variable {item : Parser α} {more : Token → Bool}

/-- The line starts with a token that an item may start with. -/
def Opens (more : Token → Bool) (ws : List Written) : Prop :=
  ∀ ts, Stands ts ws → ∃ t rest, ts = t :: rest ∧ more t = true

theorem Opens.mark {text : String} (h : ∀ t : Token, t.kind = kind → t.literal = text → more t) :
    Opens more (.mark kind text :: ws) := by
  intro ts hts
  obtain ⟨t, rest, rfl, hkind, htext, _⟩ := hts.cons
  exact ⟨t, rest, rfl, h t hkind htext⟩

variable {f : α → List Written} {u : α → β}

/-- Each item is read back in front of a comma and in front of what follows the list. -/
theorem yields_commaList (hts : Stands ts (listed (xs.map f))) (hopens : ∀ x ∈ xs, Opens more (f x))
    (hitem : ∀ x ∈ xs, item.Reads r ends (f x) fun y => u y = u x) (hcomma : ends .comma)
    (htail : ends (headKind r tail)) (hlast : headKind r tail ≠ .comma)
    (hempty : xs = [] → more (tail.headD r.ending.token) = false) :
    (commaList more item).Yields r (ts ++ tail) fun ys rest =>
      ys.map u = xs.map u ∧ rest = tail := by
  refine Yields.bounded_append fun rounds hrounds => ?_
  induction xs generalizing ts rounds with
  | nil =>
    rw [Stands.nil hts, nil_append]
    cases rounds with
    | zero => cases hrounds
    | succ rounds =>
      refine .round (.bind (.current ?_))
      rw [hempty rfl]
      exact .pure ⟨rfl, rfl⟩
  | cons x xs ih =>
    obtain ⟨hx, hxs⟩ := forall_mem_cons.mp hitem
    obtain ⟨hopen, hopens⟩ := forall_mem_cons.mp hopens
    cases rounds with
    | zero => cases hrounds
    | succ rounds =>
      refine .round (.bind (.current ?_))
      cases xs with
      | nil =>
        obtain ⟨t, rest, rfl, hmore⟩ := hopen ts hts
        rw [cons_append, headD_cons, if_pos hmore]
        refine hx.bind hts htail fun a ha => .bind (.accept_other hlast ?_)
        exact .pure ⟨by rw [map_singleton, ha, map_singleton], rfl⟩
      | cons y xs =>
        obtain ⟨front, comma, back, rfl, hkind, hfront, hback⟩ := Stands.comma hts
        obtain ⟨t, rest, rfl, hmore⟩ := hopen front hfront
        have hlength : back.length < rounds := by
          simp only [length_append, length_cons] at hrounds
          omega
        rw [append_assoc, cons_append, headD_cons, if_pos hmore]
        refine hx.bind hfront (by rwa [cons_append, headKind_cons, hkind])
          fun a ha => .bind (.accept hkind (.bind ?_))
        refine (ih hback hopens hxs (fun hnil => by cases hnil) rounds hlength).leaves fun ys hys => ?_
        exact .pure ⟨by rw [map_cons, ha, hys, ← map_cons], rfl⟩

/-- A list in brackets, from its first item on. -/
theorem yields_closedList {last : Token} (hts : Stands ts (listed (xs.map f)))
    (hlast : last.kind = .closing b) (hopens : ∀ x ∈ xs, Opens more (f x))
    (hitem : ∀ x ∈ xs, item.Reads r ends (f x) fun y => u y = u x) (hcomma : ends .comma)
    (hclosing : ends (.closing b)) (hmore : ∀ t : Token, t.kind = .closing b → more t = false)
    {k : List α → Parser γ} {Q : γ → List Token → Prop}
    (hk : ∀ ys, ys.map u = xs.map u → (k ys).Yields r tail Q) :
    (commaList more item >>= fun ys => expect (.closing b) >>= fun _ => k ys).Yields r
      (ts ++ last :: tail) Q := by
  have hlist : (commaList more item).Yields r (ts ++ last :: tail) fun ys rest =>
      ys.map u = xs.map u ∧ rest = last :: tail := by
    refine yields_commaList hts hopens hitem hcomma ?_ ?_ fun _ => hmore last hlast
    · rwa [headKind_cons, hlast]
    · rw [headKind_cons, hlast]
      exact TokenKind.noConfusion
  refine .bind (hlist.leaves fun ys hys => ?_)
  exact .bind (.expect hlast (hk ys hys))

end Parser

/-! ## Lists of expressions -/

theorem Written.length_marks_le {w : List Written} {ws : List (List Written)} (h : w ∈ ws) :
    (marks w).length ≤ (marks (listed ws)).length := by
  induction ws with
  | nil => cases h
  | cons v ws ih =>
    cases ws with
    | nil => rw [mem_singleton.mp h, listed]
    | cons v' ws =>
      rw [listed, marks_append, marks_append, length_append, length_append]
      rcases mem_cons.mp h with rfl | h
      · omega
      · exact (ih h).trans (Nat.le_add_left _ _)
      · exact cons_ne_nil _ _

theorem writtenAll_eq (xs : List Expr) : writtenAll xs = Written.listed (xs.map (·.written 0)) := by
  induction xs with
  | nil => rfl
  | cons x xs ih =>
    cases xs with
    | nil => rfl
    | cons y xs => exact congrArg (x.written 0 ++ Written.comma ++ ·) ih

def writtenItem (item : String × Expr) : List Written :=
  .mark .string (Literal.quote item.1.toList) :: .mark .colon ":" :: .blank :: item.2.written 0

theorem writtenItems_eq (items : List (String × Expr)) :
    writtenItems items = Written.listed (items.map writtenItem) := by
  induction items with
  | nil => rfl
  | cons item items ih =>
    cases items with
    | nil => rfl
    | cons other items => exact congrArg (writtenItem item ++ Written.comma ++ ·) ih

theorem unplacedAll_eq (xs : List Expr) : unplacedAll xs = xs.map Expr.unplaced := by
  induction xs with
  | nil => rfl
  | cons x xs ih => rw [unplacedAll, ih, map_cons]

theorem unplacedItems_eq (items : List (String × Expr)) :
    unplacedItems items = items.map fun item => (item.1, item.2.unplaced) := by
  induction items with
  | nil => rfl
  | cons item items ih => rw [unplacedItems, ih, map_cons]

/-! ## Texts of strings -/

mutual

/-- The segments of each string, those of the expressions inside a string apart. -/
def Expr.texts : Expr → List (List Segment)
  | .name .. | .number .. => []
  | .string _ value => [Segment.plain value]
  | .format _ segments => [segments]
  | .dictionary _ items => textsItems items
  | .list _ items => textsAll items
  | .attribute _ object _ => object.texts
  | .item _ object index => object.texts ++ index.texts
  | .call _ function arguments => function.texts ++ textsAll arguments
  | .new _ operand | .not _ operand => operand.texts
  | .and _ left right | .or _ left right | .arithmetic _ _ left right
  | .relation _ _ left right => left.texts ++ right.texts

def textsAll : List Expr → List (List Segment)
  | [] => []
  | x :: xs => x.texts ++ textsAll xs

def textsItems : List (String × Expr) → List (List Segment)
  | [] => []
  | (_, x) :: items => x.texts ++ textsItems items

end

/-- Each text falls into its segments again. -/
def SplitsBack (split : String → List Segment) (texts : List (List Segment)) : Prop :=
  ∀ segments ∈ texts,
    unplacedSegments (split (String.ofList (formatText segments))) = unplacedSegments segments

theorem SplitsBack.append {split : String → List Segment} {texts texts' : List (List Segment)}
    (h : SplitsBack split (texts ++ texts')) : SplitsBack split texts ∧ SplitsBack split texts' :=
  forall_mem_append.mp h

theorem any_isExpr_unplacedSegments (segments : List Segment) :
    (unplacedSegments segments).any Segment.isExpr = segments.any Segment.isExpr := by
  induction segments with
  | nil => rfl
  | cons segment segments ih =>
    cases segment with
    | text t => simpa [unplacedSegments, Segment.isExpr] using ih
    | expr x => simp [unplacedSegments, Segment.isExpr]

theorem plainText_unplacedSegments (segments : List Segment) :
    Segment.plainText (unplacedSegments segments) = Segment.plainText segments := by
  induction segments with
  | nil => rfl
  | cons segment segments ih =>
    cases segment with
    | text t => rw [unplacedSegments, Segment.plainText, Segment.plainText, ih]
    | expr x => rw [unplacedSegments, Segment.plainText, Segment.plainText, ih]

theorem formatText_plain (value : String) :
    formatText (Segment.plain value) = Format.double value.toList := by
  rw [Segment.plain]
  split
  · next hempty =>
    rw [String.isEmpty_iff.mp hempty]
    rfl
  · rw [formatText, formatText, append_nil]

namespace Expr

/-- Segments that differ in places only make the same string. -/
theorem unplaced_ofSegments {segments segments' : List Segment} (p p' : Position)
    (h : unplacedSegments segments = unplacedSegments segments') :
    (ofSegments p segments).unplaced = (ofSegments p' segments').unplaced := by
  have hany : segments.any Segment.isExpr = segments'.any Segment.isExpr := by
    rw [← any_isExpr_unplacedSegments, h, any_isExpr_unplacedSegments]
  have hplain : Segment.plainText segments = Segment.plainText segments' := by
    rw [← plainText_unplacedSegments, h, plainText_unplacedSegments]
  rw [ofSegments, ofSegments, hany]
  split
  · rw [unplaced, unplaced, h]
  · rw [unplaced, unplaced, hplain]

variable (p : Position)

theorem ofSegments_plain (value : String) :
    ofSegments p (Segment.plain value) = .string p value := by
  rw [Segment.plain]
  split
  · next hempty =>
    rw [String.isEmpty_iff.mp hempty]
    rfl
  · rw [ofSegments, if_neg (by simp [Segment.isExpr]), Segment.plainText, Segment.plainText,
      String.append_empty]

/-! ## Atoms and suffixes -/

open Stencil.Parser

variable {r : Reading} {inner : Parser Expr} {e : Expr} {ts : List Token} {t first last : Token}

namespace ReadsAs

theorem name (ht : t.kind = .identifier) :
    ReadsAs r inner 8 [t] (.name p t.literal) := by
  refine of_atom fun tail => .bind (.current (.bind (.here fun q => ?_)))
  simp only [cons_append, headD_cons, ht]
  exact .bind (.advance (.pure ⟨rfl, rfl⟩))

theorem number (ht : t.kind = .number) :
    ReadsAs r inner 8 [t] (.number p t.literal) := by
  refine of_atom fun tail => .bind (.current (.bind (.here fun q => ?_)))
  simp only [cons_append, headD_cons, ht]
  exact .bind (.advance (.pure ⟨rfl, rfl⟩))

end ReadsAs

theorem yields_stringValue {text : List Char} (ht : t.kind = .string)
    (hliteral : t.literal = Literal.quote text) {Q : String → List Token → Prop}
    (h : Q (String.ofList text) ts) : stringValue.Yields r (t :: ts) Q := by
  refine .bind (.expect ht ?_)
  rw [hliteral, Literal.value_quote]
  exact .pure h

namespace ReadsAs

theorem string {text : List Char} (ht : t.kind = .string)
    (hliteral : t.literal = Literal.quote text)
    (he : ∀ p, (ofSegments p (r.split (String.ofList text))).unplaced = e.unplaced) :
    ReadsAs r inner 8 [t] e := by
  refine of_atom fun tail => .bind (.current (.bind (.here fun q => ?_)))
  simp only [cons_append, nil_append, headD_cons, ht]
  refine .bind (yields_stringValue ht hliteral ?_)
  exact .bind (.split (.pure ⟨he q, rfl⟩))

theorem paren {ws : List Written} (hfirst : first.kind = .opening .paren)
    (hlast : last.kind = .closing .paren) (hts : Stands ts ws)
    (h : inner.Reads r (Stops 0) ws fun x => x.unplaced = e.unplaced) :
    ReadsAs r inner 8 (first :: (ts ++ [last])) e := by
  refine of_atom fun tail => .bind (.current (.bind (.here fun q => ?_)))
  simp only [cons_append, append_assoc, nil_append, headD_cons, hfirst]
  refine .bind (.advance (h.bind hts (stops_cons hlast (.closing .paren)) fun x hx => ?_))
  exact .bind (.expect hlast (.pure ⟨hx, rfl⟩))

end ReadsAs

/-! Items with commas between them. -/

theorem opens (x : Expr) (b : Bracket) : Opens (·.kind ≠ .closing b) (x.written 0) := by
  intro ts hts
  obtain ⟨t, rest, rfl, hclosing, -⟩ := x.front_own.of_stands hts
  exact ⟨t, rest, rfl, decide_eq_true (hclosing b)⟩

theorem yields_listUntil {b : Bracket} {xs : List Expr} (hts : Stands ts (writtenAll xs))
    (h : ∀ x ∈ xs, inner.Reads r (Stops 0) (x.written 0) fun y => y.unplaced = x.unplaced)
    (hlast : last.kind = .closing b) {tail : List Token} {Q : List Expr → List Token → Prop}
    (hQ : ∀ ys, unplacedAll ys = unplacedAll xs → Q ys tail) :
    (listUntil inner b).Yields r (ts ++ last :: tail) Q := by
  rw [writtenAll_eq] at hts
  refine yields_closedList hts hlast (fun x _ => x.opens b) h .comma (.closing b)
    (fun t ht => by simp [ht]) fun ys hys => .pure (hQ ys ?_)
  rw [unplacedAll_eq, hys, unplacedAll_eq]

/-- A key with its value. -/
theorem reads_dictionaryItem {item : String × Expr}
    (h : inner.Reads r (Stops 0) (item.2.written 0) fun x => x.unplaced = item.2.unplaced) :
    (dictionaryItem inner).Reads r (Stops 0) (writtenItem item) fun y =>
      (y.1, y.2.unplaced) = (item.1, item.2.unplaced) := by
  intro ts tail hts hstop
  obtain ⟨key, rest, rfl, hkey, hliteral, hrest⟩ := hts.cons
  obtain ⟨colon, value, rfl, hcolon, -, hvalue⟩ := hrest.cons
  refine .bind (.bind (.current ?_))
  rw [cons_append, headD_cons, if_pos hkey]
  refine yields_stringValue hkey hliteral ?_
  refine .bind (.expect hcolon (h.bind hvalue.blank hstop fun y hy => ?_))
  exact .pure ⟨Prod.ext String.ofList_toList hy, rfl⟩

namespace ReadsAs

theorem list {xs : List Expr} (hfirst : first.kind = .opening .square)
    (hlast : last.kind = .closing .square) (hts : Stands ts (writtenAll xs))
    (h : ∀ x ∈ xs, inner.Reads r (Stops 0) (x.written 0) fun y => y.unplaced = x.unplaced) :
    ReadsAs r inner 8 (first :: (ts ++ [last])) (.list p xs) := by
  refine of_atom fun tail => .bind (.current (.bind (.here fun q => ?_)))
  simp only [cons_append, append_assoc, nil_append, headD_cons, hfirst]
  refine .bind (.advance (.bind (yields_listUntil hts h hlast ?_)))
  intro ys hys
  exact .pure ⟨by rw [unplaced, unplaced, hys], rfl⟩

theorem dictionary {items : List (String × Expr)}
    (hfirst : first.kind = .opening .brace) (hlast : last.kind = .closing .brace)
    (hts : Stands ts (writtenItems items))
    (h : ∀ item ∈ items, inner.Reads r (Stops 0) (item.2.written 0) fun x =>
      x.unplaced = item.2.unplaced) :
    ReadsAs r inner 8 (first :: (ts ++ [last])) (.dictionary p items) := by
  refine of_atom fun tail => .bind (.current (.bind (.here fun q => ?_)))
  simp only [cons_append, append_assoc, nil_append, headD_cons, hfirst]
  rw [writtenItems_eq] at hts
  refine .bind (.advance (yields_closedList hts hlast
    (fun item _ => Opens.mark fun t ht _ => by simp [ht])
    (fun item hitem => reads_dictionaryItem (h item hitem)) .comma (.closing .brace)
    (fun t ht => by simp [ht]) fun ys hys => .pure ⟨?_, rfl⟩))
  rw [unplaced, unplaced, unplacedItems_eq, hys, unplacedItems_eq]

variable {object : Expr}

theorem «attribute» {name : Token} (hobject : ReadsAs r inner 7 ts object)
    (ht : t.kind = .dot) (hname : name.isWord) :
    ReadsAs r inner 7 (ts ++ [t, name]) (.attribute p object name.literal) := by
  refine hobject.suffix (by simp) ?_
  intro x rounds tail Q hx hnext
  refine .round (.bind (.here fun q => .bind (.kind ?_)))
  simp only [cons_append, nil_append, headD_cons, ht]
  refine .bind (.advance (.bind (.current ?_)))
  rw [tail_cons, headD_cons, if_pos hname]
  exact .bind (.advance ((hnext _ (by rw [unplaced, unplaced, hx])).again _))

theorem item {index : Expr} {tindex : List Token}
    (hobject : ReadsAs r inner 7 ts object) (hfirst : first.kind = .opening .square)
    (hlast : last.kind = .closing .square) (hindex : Stands tindex (index.written 0))
    (h : inner.Reads r (Stops 0) (index.written 0) fun x => x.unplaced = index.unplaced) :
    ReadsAs r inner 7 (ts ++ first :: (tindex ++ [last])) (.item p object index) := by
  refine hobject.suffix (by simp) ?_
  intro x rounds tail Q hx hnext
  refine .round (.bind (.here fun q => .bind (.kind ?_)))
  simp only [cons_append, append_assoc, nil_append, headD_cons, hfirst]
  refine .bind (.advance (h.bind hindex (stops_cons hlast (.closing .square)) fun y hy => ?_))
  exact .bind (.expect hlast ((hnext _ (by rw [unplaced, unplaced, hx, hy])).again _))

theorem call {function : Expr} {arguments : List Expr} {targuments : List Token}
    (hfunction : ReadsAs r inner 7 ts function) (hfirst : first.kind = .opening .paren)
    (hlast : last.kind = .closing .paren) (harguments : Stands targuments (writtenAll arguments))
    (h : ∀ x ∈ arguments, inner.Reads r (Stops 0) (x.written 0) fun y => y.unplaced = x.unplaced) :
    ReadsAs r inner 7 (ts ++ first :: (targuments ++ [last])) (.call p function arguments) := by
  refine hfunction.suffix (by simp) ?_
  intro x rounds tail Q hx hnext
  refine .round (.bind (.here fun q => .bind (.kind ?_)))
  simp only [cons_append, append_assoc, nil_append, headD_cons, hfirst]
  refine .bind (.advance (.bind (yields_listUntil harguments h hlast ?_)))
  intro ys hys
  exact (hnext _ (by rw [unplaced, unplaced, hx, hys])).again _

end ReadsAs

/-! ## The induction -/

/-- The expression without parentheses around it is read at its own level. -/
def ReadsOwn (r : Reading) (e : Expr) : Prop :=
  ∀ depth before ts, Stands ts (e.written 0) → ts.length ≤ depth →
    ReadsAs r (again before (within depth)) e.rank ts e

namespace ReadsOwn

variable {depth before : Nat}

/-- It is read where any expression may stand. One pair of brackets goes one deeper. -/
theorem whole (h : ReadsOwn r e) (hts : Stands ts (e.written 0)) (hdepth : ts.length < depth)
    {tail : List Token} (hstop : Stops 0 (headKind r tail)) :
    (within depth).Yields r (ts ++ tail) fun x rest => x.unplaced = e.unplaced ∧ rest = tail := by
  cases depth with
  | zero => cases hdepth
  | succ depth =>
    have hread := h depth (ts ++ tail).length ts hts (Nat.le_of_lt_succ hdepth)
    obtain ⟨t, rest, rfl, -, hfront⟩ := e.front_own.of_stands hts
    exact .round ((hread.lower_to e.rank_le (Nat.zero_le _) hfront).whole hstop)

theorem reads_within (h : ReadsOwn r e) (hdepth : (marks (e.written 0)).length < depth) :
    (again before (within depth)).Reads r (Stops 0) (e.written 0) fun x => x.unplaced = e.unplaced :=
  fun _ _ hts hstop => (h.whole hts (hts.length.trans_lt hdepth) hstop).again before

/-- With or without parentheses, it is read at the level that it is written for. -/
theorem reads (h : ReadsOwn r e) {least : Nat} (hleast : least ≤ 8)
    (hts : Stands ts (e.written least)) (hdepth : ts.length ≤ depth) :
    ReadsAs r (again before (within depth)) least ts e := by
  rw [e.written_eq hleast, encloseIf] at hts
  split at hts
  -- In parentheses it is an atom, and every level reads atoms.
  · obtain ⟨first, middle, last, rfl, hfirst, hlast, hmiddle⟩ := hts.enclose
    simp only [length_cons, length_append, hmiddle.length] at hdepth
    have hparen : ReadsAs r (again before (within depth)) 8 (first :: (middle ++ [last])) e :=
      .paren hfirst hlast hmiddle (h.reads_within (by omega))
    exact hparen.lower_to (Nat.le_refl 8) hleast (by simp [hfirst])
  · next hrank =>
    rw [decide_eq_true_eq] at hrank
    have hread := h depth before ts hts hdepth
    obtain ⟨t, rest, rfl, -, hfront⟩ := e.front_own.of_stands hts
    exact hread.lower_to e.rank_le (by omega) hfront

/-- An operator of a level between operands of that level and of the next. -/
theorem joined {left right : Expr} {k : Nat} {kind : TokenKind} {text : String}
    {combine : Position → Expr → Expr → Expr} (hleft : ReadsOwn r left) (hright : ReadsOwn r right)
    (hts : Stands ts (joined (.mark kind text) (left.written k) (right.written (k + 1))))
    (hdepth : ts.length ≤ depth) (hk : k < 7) (hjoining : joining k kind = some combine)
    (hstop : Stops (k + 1) kind)
    (he : ∀ p x y, x.unplaced = left.unplaced → y.unplaced = right.unplaced →
      (combine p x y).unplaced = e.unplaced) :
    ReadsAs r (again before (within depth)) k ts e := by
  obtain ⟨tl, t, tr, rfl, rfl, hl, hr⟩ := hts.joined
  simp only [length_append, length_cons] at hdepth
  exact .join (by omega) (hleft.reads (by omega) hl (by omega))
    (hright.reads (by omega) hr (by omega)) hjoining hstop he

theorem reads_all {xs : List Expr} (h : ∀ x ∈ xs, ReadsOwn r x) (hts : Stands ts (writtenAll xs))
    (hdepth : ts.length < depth) (x : Expr) (hx : x ∈ xs) :
    (again before (within depth)).Reads r (Stops 0) (x.written 0)
      fun y => y.unplaced = x.unplaced := by
  rw [hts.length, writtenAll_eq] at hdepth
  exact (h x hx).reads_within
    ((Written.length_marks_le (mem_map_of_mem hx)).trans_lt hdepth)

end ReadsOwn

theorem isWord_of_isWordText (hkind : t.kind = .ofWord t.literal)
    (h : isWordText t.literal) : t.isWord := by
  rw [Token.isWord, hkind, TokenKind.ofWord]
  cases Keyword.ofText? t.literal with
  | none => rfl
  | some k =>
    rw [isWordText] at h
    split at h
    · cases h
    · next c cs hchars =>
      rw [Bool.and_eq_true] at h
      simp only [hchars, head?_cons, Option.any_some, h.1]

end Expr

open Stencil.Expr (ReadsOwn within dictionaryItem isWritable unplaced unplaced_ofSegments ofSegments
  ofSegments_plain isWord_of_isWordText joining)

variable {r : Reading}

mutual

/-- An expression is read at its own level if its strings fall into their segments again. -/
theorem Expr.reads_own (e : Expr) (h : e.isWritable) (hsplit : SplitsBack r.split e.texts) :
    ReadsOwn r e := by
  intro depth before ts hts hdepth
  cases e with
  | name p name =>
    obtain ⟨t, rfl, hkind, rfl⟩ := hts.single
    exact .name p hkind
  | number p digits =>
    obtain ⟨t, rfl, hkind, rfl⟩ := hts.single
    exact .number p hkind
  | string p value =>
    obtain ⟨t, rfl, hkind, hliteral⟩ := hts.single
    refine .string hkind hliteral fun q => ?_
    have hvalue := hsplit _ (mem_singleton_self _)
    rw [formatText_plain] at hvalue
    rw [unplaced_ofSegments q p hvalue, ofSegments_plain]
  | format p segments =>
    obtain ⟨t, rfl, hkind, hliteral⟩ := hts.single
    refine .string hkind hliteral fun q => ?_
    rw [unplaced_ofSegments q p (hsplit _ (mem_singleton_self _)), ofSegments, if_pos]
    rw [isWritable, Bool.and_eq_true] at h
    exact h.1
  | dictionary p items =>
    obtain ⟨first, middle, last, rfl, hfirst, hlast, hmiddle⟩ := hts.enclose
    simp only [length_append, length_cons, hmiddle.length, writtenItems_eq] at hdepth
    have hitems : ∀ item ∈ items, ReadsOwn r item.2 := readsOwn_items items h hsplit
    refine .dictionary p hfirst hlast hmiddle fun item hitem => ?_
    have hlength : (marks (item.2.written 0)).length + 2 ≤ _ :=
      Written.length_marks_le (mem_map_of_mem (f := writtenItem) hitem)
    exact (hitems item hitem).reads_within (by omega)
  | list p items =>
    obtain ⟨first, middle, last, rfl, hfirst, hlast, hmiddle⟩ := hts.enclose
    simp only [length_append, length_cons] at hdepth
    have hitems : ∀ x ∈ items, ReadsOwn r x := readsOwn_all items h hsplit
    exact .list p hfirst hlast hmiddle (ReadsOwn.reads_all hitems hmiddle (by omega))
  | «attribute» p object name =>
    rw [isWritable, Bool.and_eq_true] at h
    obtain ⟨front, back, rfl, hfront, hback⟩ := Stands.append hts
    obtain ⟨t, rest, rfl, hdot, -, hrest⟩ := hback.cons
    obtain ⟨word, rfl, hword, rfl⟩ := hrest.single
    simp only [length_append] at hdepth
    have hobject : ReadsOwn r object := object.reads_own h.1 hsplit
    exact .attribute p (hobject.reads (by decide) hfront (by omega)) hdot
      (isWord_of_isWordText hword h.2)
  | item p object index =>
    rw [isWritable, Bool.and_eq_true] at h
    obtain ⟨front, back, rfl, hfront, hback⟩ := Stands.append hts
    obtain ⟨first, middle, last, rfl, hfirst, hlast, hmiddle⟩ := hback.enclose
    simp only [length_append, length_cons, hmiddle.length] at hdepth
    have hobject : ReadsOwn r object := object.reads_own h.1 hsplit.append.1
    have hindex : ReadsOwn r index := index.reads_own h.2 hsplit.append.2
    exact .item p (hobject.reads (by decide) hfront (by omega)) hfirst hlast hmiddle
      (hindex.reads_within (by omega))
  | call p function arguments =>
    rw [isWritable, Bool.and_eq_true] at h
    obtain ⟨front, back, rfl, hfront, hback⟩ := Stands.append hts
    obtain ⟨first, middle, last, rfl, hfirst, hlast, hmiddle⟩ := hback.enclose
    simp only [length_append, length_cons] at hdepth
    have hfunction : ReadsOwn r function := function.reads_own h.1 hsplit.append.1
    have harguments : ∀ x ∈ arguments, ReadsOwn r x :=
      readsOwn_all arguments h.2 hsplit.append.2
    exact .call p (hfunction.reads (by decide) hfront (by omega)) hfirst hlast hmiddle
      (ReadsOwn.reads_all harguments hmiddle (by omega))
  | new p operand =>
    obtain ⟨t, rest, rfl, hkind, -, hrest⟩ := hts.cons
    have hoperand : ReadsOwn r operand := operand.reads_own h hsplit
    exact .wrap (k := 6) (by decide) rfl rfl
      (hoperand.reads (by decide) hrest.blank (Nat.le_of_succ_le hdepth)) hkind
      fun _ x hx => by rw [unplaced, unplaced, hx]
  | not p operand =>
    obtain ⟨t, rest, rfl, hkind, -, hrest⟩ := hts.cons
    have hoperand : ReadsOwn r operand := operand.reads_own h hsplit
    exact .wrap (k := 2) (by decide) rfl rfl
      (hoperand.reads (by decide) hrest.blank (Nat.le_of_succ_le hdepth)) hkind
      fun _ x hx => by rw [unplaced, unplaced, hx]
  | arithmetic p op left right =>
    rw [isWritable, Bool.and_eq_true] at h
    have hleft : ReadsOwn r left := left.reads_own h.1 hsplit.append.1
    have hright : ReadsOwn r right := right.reads_own h.2 hsplit.append.2
    have hjoining : joining op.rank op.kind = some (.arithmetic · op) := by cases op <;> rfl
    have hrank : op.rank < 7 := by cases op <;> decide
    exact hleft.joined hright hts hdepth hrank hjoining (.arithmetic op)
      fun _ x y hx hy => by rw [unplaced, unplaced, hx, hy]
  | relation p op left right =>
    rw [isWritable, Bool.and_eq_true] at h
    have hleft : ReadsOwn r left := left.reads_own h.1 hsplit.append.1
    have hright : ReadsOwn r right := right.reads_own h.2 hsplit.append.2
    have hjoining : joining 3 op.kind = some (.relation · op) := by cases op <;> rfl
    exact hleft.joined (k := 3) hright hts hdepth (by decide) hjoining (.relation op)
      fun _ x y hx hy => by rw [unplaced, unplaced, hx, hy]
  | and p left right =>
    rw [isWritable, Bool.and_eq_true] at h
    have hleft : ReadsOwn r left := left.reads_own h.1 hsplit.append.1
    have hright : ReadsOwn r right := right.reads_own h.2 hsplit.append.2
    exact hleft.joined (k := 1) hright hts hdepth (by decide) rfl .conjunction
      fun _ x y hx hy => by rw [unplaced, unplaced, hx, hy]
  | or p left right =>
    rw [isWritable, Bool.and_eq_true] at h
    have hleft : ReadsOwn r left := left.reads_own h.1 hsplit.append.1
    have hright : ReadsOwn r right := right.reads_own h.2 hsplit.append.2
    exact hleft.joined (k := 0) hright hts hdepth (by decide) rfl .disjunction
      fun _ x y hx hy => by rw [unplaced, unplaced, hx, hy]

theorem readsOwn_all (xs : List Expr) (h : allWritable xs)
    (hsplit : SplitsBack r.split (textsAll xs)) : ∀ x ∈ xs, ReadsOwn r x := by
  match xs with
  | [] => exact forall_mem_nil _
  | x :: xs =>
    rw [allWritable, Bool.and_eq_true] at h
    exact forall_mem_cons.mpr
      ⟨x.reads_own h.1 hsplit.append.1, readsOwn_all xs h.2 hsplit.append.2⟩

theorem readsOwn_items (items : List (String × Expr)) (h : itemsWritable items)
    (hsplit : SplitsBack r.split (textsItems items)) : ∀ item ∈ items, ReadsOwn r item.2 := by
  match items with
  | [] => exact forall_mem_nil _
  | (key, x) :: items =>
    rw [itemsWritable, Bool.and_eq_true, Bool.and_eq_true] at h
    exact forall_mem_cons.mpr
      ⟨x.reads_own h.1.2 hsplit.append.1, readsOwn_items items h.2 hsplit.append.2⟩

end

end Stencil
