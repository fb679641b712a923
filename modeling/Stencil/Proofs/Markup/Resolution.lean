import Stencil.Proofs.Markup.Uses

/-!
# What names in lowered blocks stand for

A name in the code of a block stands for the declaration that the template means, unless it is
captured: a function between the two declares the same name, or the function of the declaration
declares it once more. Nothing in the code keeps the names of a template apart from each other or
from those that are made up.

What the template means is always declared by a function around the name. The proof walks over the
statements with the functions around them and says of each body that they declare what it needs.
-/
namespace Stencil

open Script (Chain Declaration IsDeclared)
open List

/-- What a name is meant for is declared by a function around it. -/
def Occurrence.IsValid (o : Occurrence) : Prop := ∀ d ∈ o.meant, IsDeclared o.name d o.chain

theorem Occurrence.target_eq_iff {o : Occurrence} (h : o.IsValid) :
    o.use.target = o.meant.map Declaration.variable ↔ o.isCaptured = false := by
  obtain ⟨name, meant, chain⟩ := o
  cases meant with
  | none => exact Script.resolve_global name chain
  | some d => exact Script.resolve_eq_some_iff (h d rfl)

/-- All these names are declared by functions around the place. -/
def AllDeclared (chain : Chain) (names : List (String × Declaration)) : Prop :=
  ∀ p ∈ names, IsDeclared p.1 p.2 chain

theorem AllDeclared.enter {chain : Chain} {names : List (String × Declaration)}
    (h : AllDeclared chain names) (frame : List String) : AllDeclared (frame :: chain) names :=
  fun p hp => (h p hp).enter frame

namespace Site

variable {s : Site} {name : String} {i : Nat}

theorem isValid_refer (hs : AllDeclared s.chain s.scope) (name : String) :
    (s.refer name).IsValid := by
  intro d hd
  obtain ⟨p, hp, rfl⟩ := Option.map_eq_some_iff.mp hd
  have hname : p.1 = name := by simpa using find?_some hp
  exact hname ▸ hs p (mem_of_find?_eq_some hp)

theorem isValid_own (h : IsDeclared name (s.declaration i) s.chain) : (s.own name i).IsValid := by
  rintro _ ⟨⟩
  exact h

theorem isValid_global (s : Site) (name : String) : (s.global name).IsValid := by
  intro d hd
  cases hd

theorem isValid_keyed {loops : List (String × Declaration)} (h : AllDeclared s.chain loops) :
    ∀ o ∈ s.keyed loops, o.IsValid := by
  intro o ho
  obtain ⟨l, hl, rfl⟩ := mem_map.mp ho
  rintro _ ⟨⟩
  exact h l hl

theorem scope_bind (hs : AllDeclared s.chain s.scope)
    (h : IsDeclared name (s.declaration i) s.chain) :
    AllDeclared (s.bind name i).chain (s.bind name i).scope :=
  forall_mem_cons.mpr ⟨h, hs⟩

theorem isDeclared_function (s : Site) (param : String) :
    IsDeclared param ((s.function param).declaration 0) (s.function param).chain :=
  Script.isDeclared_head rfl

theorem scope_function (hs : AllDeclared s.chain s.scope) (param : String) :
    AllDeclared (s.function param).chain (s.function param).scope :=
  forall_mem_cons.mpr ⟨s.isDeclared_function param, hs.enter _⟩

end Site

section Expressions

variable {s : Site}

mutual

theorem Expr.isValid_occurrences (hs : AllDeclared s.chain s.scope) (x : Expr) :
    ∀ o ∈ x.occurrences s, o.IsValid := by
  cases x with
  | name p n => exact forall_mem_singleton.mpr (Site.isValid_refer hs n)
  | string p v => exact forall_mem_nil _
  | number p d => exact forall_mem_nil _
  | new p x => exact x.isValid_occurrences hs
  | not p x => exact x.isValid_occurrences hs
  | «attribute» p x n => exact x.isValid_occurrences hs
  | list p xs => exact isValid_occurrencesOfAll hs xs
  | dictionary p items => exact isValid_occurrencesOfItems hs items
  | format p segments => exact isValid_occurrencesOfSegments hs segments
  | call p f xs =>
    exact forall_mem_append.mpr ⟨f.isValid_occurrences hs, isValid_occurrencesOfAll hs xs⟩
  | and p x y | or p x y | item p x y | arithmetic p op x y | relation p op x y =>
    exact forall_mem_append.mpr ⟨x.isValid_occurrences hs, y.isValid_occurrences hs⟩

theorem isValid_occurrencesOfAll (hs : AllDeclared s.chain s.scope) (xs : List Expr) :
    ∀ o ∈ occurrencesOfAll s xs, o.IsValid := by
  match xs with
  | [] => exact forall_mem_nil _
  | x :: xs =>
    exact forall_mem_append.mpr ⟨x.isValid_occurrences hs, isValid_occurrencesOfAll hs xs⟩

theorem isValid_occurrencesOfItems (hs : AllDeclared s.chain s.scope)
    (items : List (String × Expr)) : ∀ o ∈ occurrencesOfItems s items, o.IsValid := by
  match items with
  | [] => exact forall_mem_nil _
  | (_, x) :: items =>
    exact forall_mem_append.mpr ⟨x.isValid_occurrences hs, isValid_occurrencesOfItems hs items⟩

theorem isValid_occurrencesOfSegments (hs : AllDeclared s.chain s.scope)
    (segments : List Segment) : ∀ o ∈ occurrencesOfSegments s segments, o.IsValid := by
  match segments with
  | [] => exact forall_mem_nil _
  | .text t :: segments => exact isValid_occurrencesOfSegments hs segments
  | .expr x :: segments =>
    refine forall_mem_cons.mpr ⟨s.isValid_global "String", ?_⟩
    exact forall_mem_append.mpr
      ⟨x.isValid_occurrences hs, isValid_occurrencesOfSegments hs segments⟩

end

theorem isValid_callbackOccurrences (hs : AllDeclared s.chain s.scope) (x : Option Expr) :
    ∀ o ∈ callbackOccurrences s x, o.IsValid := by
  cases x with
  | none => exact forall_mem_nil _
  | some x =>
    rw [callbackOccurrences, Option.toList_some, flatMap_singleton]
    exact x.isValid_occurrences (Site.scope_function hs "ev")

end Expressions

namespace Site

/-- The innermost function declares these names as its variables from number `n` on. -/
def Declares (s : Site) (n : Nat) (names : List String) : Prop :=
  ∀ j name, names[j]? = some name → IsDeclared name (s.declaration (s.params + n + j)) s.chain

namespace Declares

variable {s : Site} {n : Nat} {names more : List String}

theorem left (h : s.Declares n (names ++ more)) : s.Declares n names := by
  intro j name hj
  have hlt : j < names.length := (List.getElem?_eq_some_iff.mp hj).1
  exact h j name (by rw [getElem?_append_left hlt, hj])

theorem right (h : s.Declares n (names ++ more)) : s.Declares (n + names.length) more := by
  intro j name hj
  have hadd : s.params + (n + names.length) + j = s.params + n + (names.length + j) := by omega
  rw [hadd]
  refine h _ name ?_
  rw [getElem?_append_right (Nat.le_add_right _ _), Nat.add_sub_cancel_left, hj]

theorem head {name : String} (h : s.Declares n (name :: more)) :
    IsDeclared name (s.declaration (s.params + n)) s.chain :=
  h 0 name rfl

end Declares

/-- The functions around a body declare all that the body needs. -/
structure Fits (s : Site) (place : Place) (n : Nat) (body : List Statement) : Prop where
  scope : AllDeclared s.chain s.scope
  vars : s.Declares n (Statement.bodyVariables n body)
  old : place = .element → Statement.bodyVariables n body ≠ [] →
    IsDeclared "old_node" (s.declaration 0) s.chain

variable {s : Site}

/-- What follows a statement fits too. -/
theorem Fits.after {place : Place} {n : Nat} {x : Statement} {rest : List Statement}
    (h : s.Fits place n (x :: rest)) :
    (s.after n x).Fits place (n + (x.variableNames n).length) rest where
  scope := by
    have hx := h.vars.left
    cases x with
    | binding _ name value => exact scope_bind h.scope hx.head
    | store _ name value => exact scope_bind h.scope hx.head
    | _ => exact h.scope
  vars := by
    have hrest := h.vars.right
    cases x <;> exact hrest
  old := by
    intro hplace hne
    have hold := h.old hplace fun hnil => hne (append_eq_nil_iff.mp hnil).2
    cases x <;> exact hold

/-- An element's function declares the old node and the variables of the body. -/
theorem fits_element (hs : AllDeclared s.chain s.scope) (body : List Statement) :
    (s.element body).Fits .element 0 body := by
  rw [Site.element]
  cases hvars : Statement.bodyVariables 0 body with
  | nil =>
    refine ⟨hs, ?_, ?_⟩
    · rw [hvars]
      intro j name hj
      cases hj
    · intro _ hne
      exact absurd hvars hne
  | cons first vars =>
    refine ⟨hs.enter _, ?_, fun _ _ => Script.isDeclared_head rfl⟩
    intro j name hj
    rw [hvars] at hj
    refine Script.isDeclared_head (Eq.trans ?_ hj)
    exact congrArg (("old_node" :: first :: vars)[·]?) (Nat.add_comm 1 j)

/-- The bodies of branches and loops declare nothing. -/
theorem fits_branch (hs : AllDeclared s.chain s.scope) {body : List Statement}
    (hplaced : Statement.allPlaced .branch body) : s.Fits .branch 0 body where
  scope := hs
  vars := by
    rw [← Statement.vars_ofBody, Contribution.ofBody_vars_eq_nil.mpr
      (Statement.not_declares_of_branch hplaced)]
    intro j name hj
    cases hj
  old := by
    intro hplace
    cases hplace

end Site

namespace BindingOccurrences

/-- All names in the values, the stores and the handlers are meant for something declared. -/
structure IsValid (o : BindingOccurrences) : Prop where
  values : ∀ x ∈ o.values, x.IsValid
  stores : ∀ x ∈ o.stores, x.IsValid
  handlers : ∀ h ∈ o.handlers, ∀ x ∈ h.2, x.IsValid

namespace IsValid

theorem empty : IsValid {} := ⟨forall_mem_nil _, forall_mem_nil _, forall_mem_nil _⟩

variable {o : BindingOccurrences} {s : Site} {n : Nat} {place : Place}

theorem append {p : BindingOccurrences} (ho : o.IsValid) (hp : p.IsValid) : (o ++ p).IsValid :=
  ⟨forall_mem_append.mpr ⟨ho.values, hp.values⟩, forall_mem_append.mpr ⟨ho.stores, hp.stores⟩,
    forall_mem_append.mpr ⟨ho.handlers, hp.handlers⟩⟩

theorem events (h : o.IsValid) : ∀ x ∈ o.events, x.IsValid := by
  intro x hx
  obtain ⟨group, hgroup, hx⟩ := mem_flatMap.mp hx
  obtain ⟨handler, hhandler, hx⟩ := mem_flatten.mp hx
  obtain ⟨event, _, rfl⟩ := mem_map.mp hgroup
  obtain ⟨pair, hpair, rfl⟩ := mem_map.mp hhandler
  exact h.handlers pair (mem_filter.mp hpair).1 x hx

theorem ofLink (hs : AllDeclared s.chain s.scope) {link : Link}
    (hvars : s.Declares n (link.variableNames n)) : IsValid (.ofLink s n link) := by
  have hcallbacks (value filter : Option Expr) :
      ∀ o ∈ callbackOccurrences s value ++ callbackOccurrences s filter, o.IsValid :=
    forall_mem_append.mpr
      ⟨isValid_callbackOccurrences hs value, isValid_callbackOccurrences hs filter⟩
  cases link with
  | single event filter target =>
    refine ⟨forall_mem_nil _, forall_mem_nil _, forall_mem_singleton.mpr ?_⟩
    dsimp only
    rw [append_assoc]
    exact forall_mem_append.mpr ⟨target.target.isValid_occurrences hs, hcallbacks _ _⟩
  | multi entries target =>
    refine ⟨target.target.isValid_occurrences hs, forall_mem_nil _, ?_⟩
    intro h hh
    obtain ⟨e, _, rfl⟩ := mem_map.mp hh
    exact forall_mem_cons.mpr ⟨Site.isValid_own hvars.head, hcallbacks _ _⟩

theorem ofLinks (hs : AllDeclared s.chain s.scope) {links : List Link}
    (hvars : s.Declares n (linkVariables n links)) : IsValid (.ofLinks s n links) := by
  induction links generalizing n with
  | nil => exact empty
  | cons link links ih => exact (ofLink hs hvars.left).append (ih hvars.right)

theorem ofStatement {x : Statement} {rest : List Statement} (hplaced : x.isPlaced place)
    (h : s.Fits place n (x :: rest)) : IsValid (.ofStatement s n x) := by
  have hvars := h.vars.left
  cases x with
  | binding _ name value =>
    exact ⟨value.isValid_occurrences h.scope, forall_mem_nil _, forall_mem_nil _⟩
  | store _ name value =>
    have hold := Site.isValid_own (h.old (of_decide_eq_true hplaced) (cons_ne_nil _ _))
    have hstore := Site.isValid_own hvars.head
    exact ⟨forall_mem_cons.mpr ⟨hold, forall_mem_cons.mpr
        ⟨hold, value.isValid_occurrences h.scope⟩⟩,
      forall_mem_singleton.mpr hstore,
      forall_mem_singleton.mpr (forall_mem_cons.mpr ⟨hstore, forall_mem_singleton.mpr hstore⟩)⟩
  | link _ links => exact ofLinks h.scope hvars
  | _ => exact empty

theorem ofBody {body : List Statement} (hplaced : Statement.allPlaced place body)
    (h : s.Fits place n body) : IsValid (.ofBody s n body) := by
  induction body generalizing s n with
  | nil => exact empty
  | cons x rest ih =>
    obtain ⟨hx, hrest⟩ := Bool.and_eq_true_iff.mp hplaced
    exact (ofStatement hx h).append (ih hrest h.after)

end IsValid
end BindingOccurrences

theorem isValid_fragmentOccurrences {key nodes : List Occurrence} (hkey : ∀ o ∈ key, o.IsValid)
    (hnodes : ∀ o ∈ nodes, o.IsValid) (body : List Statement) :
    ∀ o ∈ fragmentOccurrences key body nodes, o.IsValid := by
  rw [fragmentOccurrences]
  split
  · exact hnodes
  · exact forall_mem_append.mpr ⟨hkey, hnodes⟩

theorem isValid_attributes {s : Site} (hs : AllDeclared s.chain s.scope)
    (classes : List ClassClause) (attributes : List (String × Expr)) :
    ∀ o ∈ Element.occurrences s classes attributes, o.IsValid := by
  intro o ho
  rcases mem_append.mp ho with ho | ho
  · rcases mem_append.mp ho with ho | ho
    · obtain ⟨a, _, ho⟩ := mem_flatMap.mp ho
      exact a.2.isValid_occurrences hs o ho
    · obtain ⟨x, _, ho⟩ := mem_flatMap.mp ho
      exact x.isValid_occurrences hs o ho
  · obtain ⟨a, _, ho⟩ := mem_flatMap.mp ho
    exact a.2.isValid_occurrences hs o ho

namespace Statement

mutual

theorem isValid_occurrences {s : Site} (hs : AllDeclared s.chain s.scope)
    {loops : List (String × Declaration)} (hloops : AllDeclared s.chain loops) {place : Place}
    (x : Statement) (hplaced : x.isPlaced place) :
    ∀ o ∈ x.occurrences s loops, o.IsValid := by
  match x with
  | .element _ _ classes attributes body =>
    have hfits := Site.fits_element hs body
    have hinner : AllDeclared (s.element body).chain loops := by
      rw [Site.element]
      split
      · exact hloops
      · exact hloops.enter _
    have hbindings := BindingOccurrences.IsValid.ofBody hplaced hfits
    have hkey := Site.isValid_keyed hinner
    have hnodes := isValid_bodyOccurrences hinner body hplaced hfits
    have hchildren : ∀ o ∈ (if (Fragment.renderable body).isEmpty then []
        else fragmentOccurrences ((s.element body).keyed loops) body
          (bodyOccurrences (s.element body) 0 loops body)), o.IsValid := by
      split
      · exact forall_mem_nil _
      · exact isValid_fragmentOccurrences hkey hnodes body
    have hattributes := isValid_attributes hfits.scope classes attributes
    simp only [occurrences, forall_mem_append]
    exact ⟨⟨⟨⟨⟨hbindings.values, hkey⟩, hbindings.stores⟩, hattributes⟩, hchildren⟩,
      hbindings.events⟩
  | .text _ segments => exact isValid_occurrencesOfSegments hs segments
  | .output _ value => exact value.isValid_occurrences hs
  | .choice _ branches none =>
    obtain ⟨hbranches, _⟩ := Bool.and_eq_true_iff.mp hplaced
    exact forall_mem_append.mpr
      ⟨isValid_branchOccurrences hs hloops branches hbranches, forall_mem_nil _⟩
  | .choice _ branches (some body) =>
    obtain ⟨hbranches, hbody⟩ := Bool.and_eq_true_iff.mp hplaced
    have hnodes := isValid_bodyOccurrences hloops body hbody (Site.fits_branch hs hbody)
    exact forall_mem_append.mpr
      ⟨isValid_branchOccurrences hs hloops branches hbranches,
        isValid_fragmentOccurrences (Site.isValid_keyed hloops) hnodes body⟩
  | .loop _ name items body =>
    have hscope := Site.scope_function hs name
    have hinner : AllDeclared (s.function name).chain
        (loops ++ [(name, (s.function name).declaration 0)]) :=
      forall_mem_append.mpr
        ⟨hloops.enter _, forall_mem_singleton.mpr (s.isDeclared_function name)⟩
    have hnodes := isValid_bodyOccurrences hinner body hplaced (Site.fits_branch hscope hplaced)
    exact forall_mem_append.mpr
      ⟨items.isValid_occurrences hs,
        isValid_fragmentOccurrences (Site.isValid_keyed hinner) hnodes body⟩
  | .store .. => exact forall_mem_nil _
  | .binding .. => exact forall_mem_nil _
  | .link .. => exact forall_mem_nil _

theorem isValid_bodyOccurrences {s : Site} {loops : List (String × Declaration)}
    (hloops : AllDeclared s.chain loops) {place : Place} {n : Nat} (body : List Statement)
    (hplaced : allPlaced place body) (h : s.Fits place n body) :
    ∀ o ∈ bodyOccurrences s n loops body, o.IsValid := by
  match body with
  | [] => exact forall_mem_nil _
  | x :: rest =>
    obtain ⟨hx, hrest⟩ := Bool.and_eq_true_iff.mp hplaced
    have hafter : AllDeclared (s.after n x).chain loops := by
      rw [Site.after_chain]
      exact hloops
    exact forall_mem_append.mpr
      ⟨isValid_occurrences h.scope hloops x hx,
        isValid_bodyOccurrences hafter rest hrest h.after⟩

theorem isValid_branchOccurrences {s : Site} (hs : AllDeclared s.chain s.scope)
    {loops : List (String × Declaration)} (hloops : AllDeclared s.chain loops)
    (branches : List (Expr × List Statement)) (hplaced : branchesPlaced branches) :
    ∀ o ∈ branchOccurrences s loops branches, o.IsValid := by
  match branches with
  | [] => exact forall_mem_nil _
  | (condition, body) :: rest =>
    obtain ⟨hbody, hrest⟩ := Bool.and_eq_true_iff.mp hplaced
    have hnodes := isValid_bodyOccurrences hloops body hbody (Site.fits_branch hs hbody)
    have hbranch := forall_mem_append.mpr
      ⟨condition.isValid_occurrences hs,
        isValid_fragmentOccurrences (Site.isValid_keyed hloops) hnodes body⟩
    exact forall_mem_append.mpr
      ⟨hbranch, isValid_branchOccurrences hs hloops rest hrest⟩

end

end Statement

namespace MarkupBlock

/-- The function of a block declares the parameters and the variables of its body. -/
theorem fits_site (b : MarkupBlock) : b.site.Fits .block 0 b.body where
  scope := by
    intro p hp
    obtain ⟨⟨name, i⟩, hmem, rfl⟩ := List.mem_map.mp hp
    have hname : (b.params.map (·.name))[i]? = some name := List.mem_zipIdx_iff_getElem?.mp hmem
    have hlt := (List.getElem?_eq_some_iff.mp hname).1
    exact Script.isDeclared_head ((List.getElem?_append_left hlt).trans hname)
  vars := by
    intro j name hj
    have hle : (b.params.map (·.name)).length ≤ b.site.params + 0 + j := Nat.le_add_right _ _
    refine Script.isDeclared_head (((List.getElem?_append_right hle).trans ?_).trans hj)
    exact congrArg ((Statement.bodyVariables 0 b.body)[·]?) (Nat.add_sub_cancel_left ..)
  old := by
    intro hplace
    cases hplace

theorem isValid_occurrences {b : MarkupBlock}
    (hplaced : Statement.allPlaced .block b.body) : ∀ o ∈ b.occurrences, o.IsValid :=
  have hbindings := BindingOccurrences.IsValid.ofBody hplaced b.fits_site
  have hnodes := Statement.isValid_bodyOccurrences (forall_mem_nil _) b.body hplaced
    b.fits_site
  forall_mem_append.mpr
    ⟨hbindings.values, isValid_fragmentOccurrences (forall_mem_nil _) hnodes b.body⟩

/-- The code of a template has one function for each markup block, in order. That of a block has the
names of the block, and each of them stands for what the template means by it exactly if it is not
captured. -/
theorem lower_target_iff {file source : String} {t : Template}
    (hread : Template.read file source = .ok t) {b : MarkupBlock} (hb : .markup b ∈ t.blocks)
    (scope : BlockScope) :
    t.lower scope = t.blocks.flatMap (Block.functions scope) ∧ b.lower scope ∈ t.lower scope ∧
      (b.lower scope).uses [] = b.occurrences.map Occurrence.use ∧
      ∀ o ∈ b.occurrences,
        o.use.target = o.meant.map Declaration.variable ↔ o.isCaptured = false := by
  have hplaced := Template.read_isPlaced hread hb
  exact ⟨t.lower_eq_flatMap scope, lower_mem hb scope, uses_eq hplaced scope, fun o ho =>
    Occurrence.target_eq_iff (isValid_occurrences hplaced o ho)⟩

end MarkupBlock

def menuSource : String :=
  "menu(dishes):\n  let n = dishes\n  ul\n    store s = Counter(n)\n" ++
  "    for d of n:\n      li\n        link \x7ba, b\x7d = s.of(d)\n        \"\x7bd\x7d\"\n"

/-- No name is captured here, although functions stand between most names and what they mean. -/
theorem menu_lower_target_iff :
    ∃ t b, Template.read "menu" menuSource = .ok t ∧ .markup b ∈ t.blocks ∧
      (b.occurrences.all (!·.isCaptured)) = true ∧
      ∀ scope : BlockScope, t.lower scope = t.blocks.flatMap (Block.functions scope) ∧
        b.lower scope ∈ t.lower scope ∧
        (b.lower scope).uses [] = b.occurrences.map Occurrence.use ∧
        ∀ o ∈ b.occurrences,
          o.use.target = o.meant.map Declaration.variable ↔ o.isCaptured = false := by
  have hcheck : ((onlyBlock (Template.read "menu" menuSource)).any fun b =>
      b.occurrences.all (!·.isCaptured)) = true := by
    decide +kernel
  obtain ⟨t, b, hread, hb, hfree⟩ := exists_of_onlyBlock hcheck
  exact ⟨t, b, hread, hb, hfree, fun scope => MarkupBlock.lower_target_iff hread hb scope⟩

/-- A parameter that an element rebinds is not visible in the new value. -/
theorem let_captures_its_own_value :
    ∃ t b, Template.read "page" "f(x):\n  div\n    let x = x\n    = x\n" = .ok t ∧
      .markup b ∈ t.blocks ∧ ∀ scope : BlockScope, ∃ o ∈ b.occurrences,
        o.use ∈ (b.lower scope).uses [] ∧ o.meant = some ⟨0, 0⟩ ∧
        o.use.target = some (Declaration.variable ⟨1, 1⟩) := by
  have hcheck : ((onlyBlock (Template.read "page" "f(x):\n  div\n    let x = x\n    = x\n")).any
      fun b => b.occurrences.any fun o => decide (o.meant = some ⟨0, 0⟩ ∧
        o.use.target = some (Declaration.variable ⟨1, 1⟩))) = true := by
    decide +kernel
  obtain ⟨t, b, hread, hb, hany⟩ := exists_of_onlyBlock hcheck
  obtain ⟨o, ho, hother⟩ := List.any_eq_true.mp hany
  refine ⟨t, b, hread, hb, fun scope => ⟨o, ho, ?_, of_decide_eq_true hother⟩⟩
  rw [MarkupBlock.uses_eq (Template.read_isPlaced hread hb)]
  exact List.mem_map_of_mem ho

end Stencil
