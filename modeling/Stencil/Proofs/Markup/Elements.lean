import Stencil.Proofs.Markup.Uses
import Stencil.Proofs.Text.Words
import Stencil.Proofs.Token.Scanning
import Stencil.Proofs.Token.Spelling

/-!
# The elements of a template and their nodes

An element at any depth of a block has its node in the code of the block, and the names of its
classes are words without a blank.
-/
namespace Stencil

open Text (Cluster isOneWord isOneWord_iff)
open List

/-! ## Elements at any depth -/

/-- An element with all that the source says of it. -/
structure Element where
  position : Position
  name : String
  classes : List ClassClause
  attributes : List (String × Expr)
  body : List Statement

namespace Element

def statement (e : Element) : Statement :=
  .element e.position e.name e.classes e.attributes e.body

/-- The node that the element becomes. -/
def node (scope : BlockScope) (key : Option Script.Expr) (e : Element) : Script.Expr :=
  e.statement.node scope key

end Element

namespace Statement

mutual

/-- The elements in a statement at any depth, in the order of the source. -/
def elements : Statement → List Element
  | .element p name classes attributes body =>
    ⟨p, name, classes, attributes, body⟩ :: elementsOf body
  | .choice _ branches otherwise =>
    elementsOfBranches branches ++ (match otherwise with
      | none => []
      | some body => elementsOf body)
  | .loop _ _ _ body => elementsOf body
  | .text .. | .output .. | .store .. | .binding .. | .link .. => []

def elementsOf : List Statement → List Element
  | [] => []
  | s :: rest => s.elements ++ elementsOf rest

def elementsOfBranches : List (Expr × List Statement) → List Element
  | [] => []
  | (_, body) :: rest => elementsOf body ++ elementsOfBranches rest

end

theorem elements_of_isControl {s : Statement} (h : s.isControl) : s.elements = [] := by
  cases s with
  | store | binding | link => rfl
  | element | text | output | choice | loop => cases h

theorem elementsOf_eq_flatMap (body : List Statement) : elementsOf body = body.flatMap elements := by
  induction body with
  | nil => rfl
  | cons s rest ih => rw [elementsOf, ih, flatMap_cons]

end Statement

/-! ## Parts of code -/

namespace Script

mutual

/-- The expressions in an expression, without itself. The default values of parameters are not
looked at. -/
def Expr.inner : Expr → List Expr
  | .string _ | .number _ | .name _ | .missing => []
  | .object properties => partsOfProperties properties
  | .list items => partsOfItems items
  | .attribute object _ => object :: object.inner
  | .item object index => object :: object.inner ++ index :: index.inner
  | .call function arguments => function :: function.inner ++ partsOfItems arguments
  | .new operand | .not operand => operand :: operand.inner
  | .and left right | .or left right | .operation _ left right =>
    left :: left.inner ++ right :: right.inner
  | .function _ _ body => partsOfBody body
  | .assign object _ value => object :: object.inner ++ value :: value.inner
  | .ternary condition chosen otherwise =>
    condition :: condition.inner ++ chosen :: chosen.inner ++ otherwise :: otherwise.inner

def partsOfItems : List Expr → List Expr
  | [] => []
  | x :: xs => x :: x.inner ++ partsOfItems xs

def partsOfProperties : List (String × Expr) → List Expr
  | [] => []
  | (_, x) :: properties => x :: x.inner ++ partsOfProperties properties

/-- The expressions in a statement. -/
def Stmt.parts : Stmt → List Expr
  | .expr x | .ret x | .var _ x => x :: x.inner
  | .function _ _ body => partsOfBody body
  | .missing => []

def partsOfBody : List Stmt → List Expr
  | [] => []
  | s :: body => s.parts ++ partsOfBody body

end

/-- An expression and those in it. -/
def Expr.parts (x : Expr) : List Expr := x :: x.inner

/-- All expressions of code. -/
def Code.parts (code : Code) : List Expr := partsOfBody code

variable {x : Expr}

theorem mem_partsOfItems {y : Expr} {xs : List Expr} (hy : y ∈ xs) (hx : x ∈ y.parts) :
    x ∈ partsOfItems xs := by
  induction xs with
  | nil => cases hy
  | cons z xs ih =>
    rw [partsOfItems, mem_append]
    rcases mem_cons.mp hy with rfl | hlater
    · exact .inl hx
    · exact .inr (ih hlater)

theorem mem_partsOfProperties {p : String × Expr} {properties : List (String × Expr)}
    (hp : p ∈ properties) (hx : x ∈ p.2.parts) : x ∈ partsOfProperties properties := by
  induction properties with
  | nil => cases hp
  | cons q properties ih =>
    rw [partsOfProperties, mem_append]
    rcases mem_cons.mp hp with rfl | hlater
    · exact .inl hx
    · exact .inr (ih hlater)

theorem mem_partsOfBody {s : Stmt} {body : List Stmt} (hs : s ∈ body) (hx : x ∈ s.parts) :
    x ∈ partsOfBody body := by
  induction body with
  | nil => cases hs
  | cons r body ih =>
    rw [partsOfBody, mem_append]
    rcases mem_cons.mp hs with rfl | hlater
    · exact .inl hx
    · exact .inr (ih hlater)

theorem partsOfBody_append (body rest : List Stmt) :
    partsOfBody (body ++ rest) = partsOfBody body ++ partsOfBody rest := by
  induction body with
  | nil => rfl
  | cons s body ih => rw [cons_append, partsOfBody, ih, partsOfBody, append_assoc]

end Script

/-! ## Nodes in the code -/

variable {scope : BlockScope} {key : Option Script.Expr} {x y : Script.Expr} {source : String}

/-- The nodes of a body are in the code of the body. -/
theorem Fragment.mem_parts_assemble {body : List Statement}
    (hy : y ∈ bodyNodes scope (isSingle body) key 0 body) (hx : x ∈ y.parts) :
    x ∈ (assemble (isSingle body) key (bodyNodes scope (isSingle body) key 0 body)).parts := by
  have hlength := bodyNodes_length scope (isSingle body) key 0 body
  generalize bodyNodes scope (isSingle body) key 0 body = nodes at hy hlength
  unfold assemble
  split
  · next hsingle =>
    have hone : (renderable body).length = 1 := of_decide_eq_true hsingle
    obtain ⟨node, rfl⟩ := length_eq_one_iff.mp (hlength.trans hone)
    obtain rfl := mem_singleton.mp hy
    exact hx
  · refine mem_cons_of_mem _ (Script.mem_partsOfProperties
      (mem_append_right _ (mem_singleton_self _)) ?_)
    exact mem_cons_of_mem _ (Script.mem_partsOfItems hy hx)

theorem Element.mem_parts_assemble {name : String} {classes : List ClassClause}
    {attributes : List (String × Expr)} {bindings : Prelude} (hx : x ∈ y.parts) :
    x ∈ (assemble scope key name classes attributes bindings (some y)).parts := by
  unfold assemble
  extract_lets attributeList object
  have hobject : x ∈ object.parts := by
    refine mem_cons_of_mem _ (Script.mem_partsOfProperties (p := ("children", y)) ?_ hx)
    simp
  split
  · exact hobject
  · refine mem_cons_of_mem _ (Script.mem_partsOfBody (mem_append_right _ (mem_singleton_self _)) ?_)
    exact hobject

/-- The last resort of a choice is in its code. -/
theorem mem_parts_choiceNode_last {i : Nat} {last : Script.Expr} (hx : x ∈ last.parts)
    (branches : List (Expr × List Statement)) :
    x ∈ (choiceNode scope key i last branches).parts := by
  induction branches generalizing i with
  | nil => exact hx
  | cons branch rest ih =>
    rw [choiceNode]
    refine mem_cons_of_mem _ ?_
    rw [Script.Expr.inner]
    exact mem_append_right _ ih

mutual

theorem Statement.node_mem_parts (scope : BlockScope) (key : Option Script.Expr) (s : Statement)
    {e : Element} (he : e ∈ s.elements) :
    ∃ k, e.node scope k ∈ (s.node scope key).parts := by
  cases s with
  | element p name classes attributes body =>
    rcases mem_cons.mp he with rfl | hbody
    · exact ⟨key, mem_cons_self⟩
    obtain ⟨k, y, hy, hx⟩ := node_mem_bodyNodes scope (Fragment.isSingle body) key 0 body hbody
    refine ⟨k, ?_⟩
    rw [Statement.node]
    have hne : (bodyNodes scope (Fragment.isSingle body) key 0 body).isEmpty = false :=
      isEmpty_eq_false_iff_exists_mem.mpr ⟨y, hy⟩
    rw [hne]
    exact Element.mem_parts_assemble (Fragment.mem_parts_assemble hy hx)
  | choice p branches otherwise =>
    cases otherwise with
    | none =>
      rcases mem_append.mp he with hbranch | hlast
      · exact node_mem_choiceNode scope key 0 _ branches hbranch
      · cases hlast
    | some body =>
      rcases mem_append.mp he with hbranch | hlast
      · exact node_mem_choiceNode scope key 0 _ branches hbranch
      · obtain ⟨k, y, hy, hx⟩ := node_mem_bodyNodes scope (Fragment.isSingle body)
          (branchKey key branches.length) 0 body hlast
        exact ⟨k, mem_parts_choiceNode_last (Fragment.mem_parts_assemble hy hx) branches⟩
  | loop p name items body =>
    obtain ⟨k, y, hy, hx⟩ := node_mem_bodyNodes scope (Fragment.isSingle body) (itemKey key name) 0
      body he
    have hbody := Fragment.mem_parts_assemble hy hx
    refine ⟨k, mem_cons_of_mem _ (mem_append_right _ ?_)⟩
    refine Script.mem_partsOfItems (mem_singleton_self _) (mem_cons_of_mem _ ?_)
    exact Script.mem_partsOfBody (mem_singleton_self _) hbody
  | text p segments | output p value | store p name value | binding p name value | link p links =>
    cases he

theorem node_mem_bodyNodes (scope : BlockScope) (single : Bool) (key : Option Script.Expr) (i : Nat)
    (body : List Statement) {e : Element} (he : e ∈ Statement.elementsOf body) :
    ∃ k, ∃ y ∈ bodyNodes scope single key i body, e.node scope k ∈ y.parts := by
  match body with
  | [] => cases he
  | s :: rest =>
    rw [Statement.elementsOf, mem_append] at he
    rw [bodyNodes]
    split
    · next hcontrol =>
      rcases he with hs | hrest
      · rw [Statement.elements_of_isControl hcontrol] at hs
        cases hs
      · exact node_mem_bodyNodes scope single key i rest hrest
    · rcases he with hs | hrest
      · obtain ⟨k, hk⟩ := s.node_mem_parts scope (Fragment.childKey single key i) hs
        exact ⟨k, _, mem_cons_self, hk⟩
      · obtain ⟨k, y, hy, hk⟩ := node_mem_bodyNodes scope single key (i + 1) rest hrest
        exact ⟨k, y, mem_cons_of_mem _ hy, hk⟩

theorem node_mem_choiceNode (scope : BlockScope) (key : Option Script.Expr) (i : Nat)
    (last : Script.Expr) (branches : List (Expr × List Statement)) {e : Element}
    (he : e ∈ Statement.elementsOfBranches branches) :
    ∃ k, e.node scope k ∈ (choiceNode scope key i last branches).parts := by
  match branches with
  | [] => cases he
  | (condition, body) :: rest =>
    rw [Statement.elementsOfBranches, mem_append] at he
    rw [choiceNode]
    rcases he with hbody | hrest
    · obtain ⟨k, y, hy, hx⟩ := node_mem_bodyNodes scope (Fragment.isSingle body) (branchKey key i) 0
        body hbody
      refine ⟨k, mem_cons_of_mem _ (mem_append_left _ (mem_append_right _ ?_))⟩
      exact Fragment.mem_parts_assemble hy hx
    · obtain ⟨k, hk⟩ := node_mem_choiceNode scope key (i + 1) last rest hrest
      exact ⟨k, mem_cons_of_mem _ (mem_append_right _ hk)⟩

end

/-- The node of each element of a block is in the function of the block. -/
theorem MarkupBlock.node_mem_parts (scope : BlockScope) (b : MarkupBlock) {e : Element}
    (he : e ∈ Statement.elementsOf b.body) : ∃ k, e.node scope k ∈ (b.lower scope).parts := by
  obtain ⟨k, y, hy, hx⟩ := node_mem_bodyNodes scope (Fragment.isSingle b.body)
    (some (b.rootKey scope)) 0 b.body he
  refine ⟨k, Script.mem_partsOfBody (mem_append_right _ (mem_singleton_self _)) ?_⟩
  exact Fragment.mem_parts_assemble hy hx

/-! ## Names of classes -/

theorem isOneWord_text {ks : List Cluster} (hks : ks <:+: Cluster.segment source) (hne : ks ≠ [])
    (hlead : ∀ k ∈ ks, 0x20 < k.lead.toNat ∧ k.lead.toNat < 0x7f) :
    isOneWord (Cluster.text ks) := by
  rw [isOneWord_iff]
  constructor
  · intro hempty
    have hsize := Cluster.length_le_bytes ks
    have hpos := length_pos_iff.mpr hne
    rw [← Cluster.utf8ByteSize_text, hempty, String.utf8ByteSize_empty] at hsize
    omega
  · intro hspace
    rw [Cluster.text, String.toList_ofList] at hspace
    obtain ⟨k, hk, hmem⟩ := mem_flatMap.mp hspace
    obtain ⟨hlow, hhigh⟩ := hlead k hk
    have hfeed : k.lead ≠ '\n' := by
      intro h
      rw [h] at hlow
      exact absurd hlow (by decide)
    rw [Cluster.lead_eq_first hfeed] at hlow hhigh
    have hplain : Text.isPlain k.first := by
      simp only [Text.isPlain, Bool.and_eq_true, decide_eq_true_eq]
      omega
    have hfirst := (Cluster.isPlain_of_mem (Cluster.isSegmented_segment source) (hks.subset hk)
      hplain).eq_first hmem (by decide)
    rw [← hfirst] at hlow
    exact absurd hlow (by decide)

/-- The pieces of a name have no space in them. -/
theorem isOneWord_of_isNamePiece {t : Token} (ht : t.SpelledIn (Cluster.segment source))
    (h : isNamePiece t) : isOneWord t.literal := by
  obtain ⟨ks, hks, hliteral, hspells⟩ := ht.literal (isSpelled_of_isNamePiece h)
  have hspelled := isSpelled_of_isNamePiece h
  have hparts : ks ≠ [] → (∀ k ∈ ks, 0x20 < k.lead.toNat ∧ k.lead.toNat < 0x7f) →
      isOneWord t.literal := by
    intro hne hlead
    rw [hliteral]
    exact isOneWord_text hks hne hlead
  generalize hkind : t.kind = kind at hspells hspelled
  cases hspells with
  | word hstart hall =>
    refine hparts (cons_ne_nil _ _) fun j hj => ?_
    have := isNamePart_bounds (hall j hj)
    omega
  | styleWord | string =>
    exfalso
    simp [isNamePiece, Token.isWord, hkind] at h
  | number hstart hall =>
    refine hparts (cons_ne_nil _ _) fun j hj => ?_
    rcases hall j hj with hdigit | hline | hdot
    · have := isNamePart_bounds (c := j.lead) (by rw [Lexeme.isNamePart, hdigit, Bool.or_true])
      omega
    · rw [hline]; decide
    · rw [hdot]; decide
  | @sign _ k next ks hsign =>
    have hlength := Lexer.operator_length hsign hspelled
    obtain rfl : ks = [] := length_eq_zero_iff.mp (by omega)
    rcases operator_cases hsign hspelled with ⟨hlead, -⟩ | ⟨hlead, rfl⟩
    · refine hparts (cons_ne_nil _ _) fun j hj => ?_
      obtain rfl := mem_singleton.mp hj
      rw [hlead]
      decide
    · -- The mark for negation is no word.
      exfalso
      have hfirst : k.first = '!' :=
        (Cluster.lead_eq_first (by rw [hlead]; decide)).symm.trans hlead
      simp [isNamePiece, Token.isWord, hkind, hliteral, Cluster.text, Cluster.chars, hfirst,
        Text.isLetter] at h

theorem isOneWord_dashName : dashName.Gives (SpelledFrom source) (isOneWord ·) := by
  have hpieces : ∀ rounds offset, (namePieces rounds offset).Gives (SpelledFrom source)
      fun text => ' ' ∉ text.toList := by
    intro rounds
    induction rounds with
    | zero => exact fun _ => .pure (by simp)
    | succ rounds ih =>
      intro offset
      refine .round fun left => Parser.Gives.current.bind fun t ⟨_, ht⟩ => .ite (fun hpiece => ?_)
        fun _ => .pure (by simp)
      have hword := isOneWord_of_isNamePiece ht (Bool.and_eq_true_iff.mp hpiece).2
      refine .after fun _ => ((ih t.stop).again left).bind fun text htext => .pure ?_
      rw [String.toList_append, mem_append, not_or]
      exact ⟨(isOneWord_iff.mp hword).2, htext⟩
  refine Parser.Gives.current.bind fun t ⟨_, ht⟩ => .ite (fun hword => ?_) fun _ => .fail _
  have hpiece : isNamePiece t := by rw [isNamePiece, hword, Bool.or_true]
  obtain ⟨hne, hspace⟩ := isOneWord_iff.mp (isOneWord_of_isNamePiece ht hpiece)
  refine .after fun _ => (Parser.Gives.bounded fun rounds => hpieces rounds t.stop).bind
    fun text htext => .pure ?_
  rw [isOneWord_iff, String.toList_append, mem_append, not_or]
  refine ⟨fun hempty => hne ?_, hspace, htext⟩
  exact (String.append_eq_empty_iff.mp hempty).1

theorem ClassClause.isOneWord_name :
    ClassClause.parser.Gives (SpelledFrom source) (isOneWord ·.name) :=
  .after fun _ => isOneWord_dashName.bind fun _ hname => .after fun _ =>
    .ite (fun _ => .after fun _ => .after fun _ => .after fun _ => .pure hname) fun _ => .pure hname

/-- The classes of an element have words as names. -/
def Element.hasWords (e : Element) : Bool := e.classes.all (isOneWord ·.name)

namespace Statement

/-- The classes of all elements in a statement have words as names. -/
def Worded (s : Statement) : Prop := ∀ e ∈ s.elements, e.hasWords = true

def AllWorded (body : List Statement) : Prop := ∀ e ∈ elementsOf body, e.hasWords = true

theorem allWorded_of_forall {body : List Statement} (h : ∀ s ∈ body, s.Worded) :
    AllWorded body := by
  intro e he
  rw [elementsOf_eq_flatMap, mem_flatMap] at he
  obtain ⟨s, hs, hmem⟩ := he
  exact h s hs e hmem

theorem branches_worded {branches : List (Expr × List Statement)}
    (h : ∀ b ∈ branches, ∀ s ∈ b.2, s.Worded) :
    ∀ e ∈ elementsOfBranches branches, e.hasWords := by
  induction branches with
  | nil => exact forall_mem_nil _
  | cons b rest ih =>
    obtain ⟨hb, hrest⟩ := forall_mem_cons.mp h
    exact forall_mem_append.mpr ⟨allWorded_of_forall hb, ih hrest⟩

theorem grows_worded : Grows (isOneWord ·.name) fun _ => Worded where
  element hclasses hbody :=
    forall_mem_cons.mpr ⟨all_eq_true.mpr hclasses, allWorded_of_forall hbody⟩
  choice {_ _ _ otherwise} hbranches hotherwise := by
    have hchosen := branches_worded hbranches
    cases otherwise with
    | none => exact forall_mem_append.mpr ⟨hchosen, forall_mem_nil _⟩
    | some body =>
      exact forall_mem_append.mpr ⟨hchosen, allWorded_of_forall (hotherwise body rfl)⟩
  loop hbody := allWorded_of_forall hbody
  text := forall_mem_nil _
  output := forall_mem_nil _
  binding _ := forall_mem_nil _
  store := forall_mem_nil _
  link := forall_mem_nil _

end Statement

/-- The classes of all elements of a template that was read have words as names. -/
theorem Template.worded_of_read {file : String} {t : Template}
    (h : Template.read file source = .ok t) {b : MarkupBlock} (hb : b ∈ t.markupBlocks) :
    Statement.AllWorded b.body := by
  have hread := Template.of_read_spelled (Template.parser_gives (fun _ => .any _)
    (MarkupBlock.parser_gives Statement.grows_worded ClassClause.isOneWord_name)) h
  exact Statement.allWorded_of_forall (hread.2 b hb)

end Stencil
