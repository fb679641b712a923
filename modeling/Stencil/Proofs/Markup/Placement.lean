import Stencil.Proofs.Token.Results
import Stencil.Template.Module

/-!
# Where bindings stand

In a template that was read, a `let` stands directly in a block or in an element, a `store` or a
`link` directly in an element, and the bodies of branches and loops hold no bindings at all.
-/
namespace Stencil

namespace Statement

mutual

def isPlaced (place : Place) : Statement → Bool
  | .element _ _ _ _ body => allPlaced .element body
  | .text .. | .output .. => true
  | .binding .. => place ≠ .branch
  | .store .. | .link .. => place = .element
  | .choice _ branches otherwise =>
    branchesPlaced branches && (match otherwise with
      | none => true
      | some body => allPlaced .branch body)
  | .loop _ _ _ body => allPlaced .branch body

def allPlaced (place : Place) : List Statement → Bool
  | [] => true
  | s :: rest => s.isPlaced place && allPlaced place rest

def branchesPlaced : List (Expr × List Statement) → Bool
  | [] => true
  | (_, body) :: rest => allPlaced .branch body && branchesPlaced rest

end

theorem allPlaced_of_forall {place : Place} {body : List Statement}
    (h : ∀ s ∈ body, s.isPlaced place) : allPlaced place body := by
  induction body with
  | nil => rfl
  | cons s rest ih =>
    obtain ⟨hs, hrest⟩ := List.forall_mem_cons.mp h
    rw [allPlaced, hs, ih hrest]
    rfl

theorem branchesPlaced_of_forall {branches : List (Expr × List Statement)}
    (h : ∀ b ∈ branches, ∀ s ∈ b.2, s.isPlaced .branch) : branchesPlaced branches := by
  induction branches with
  | nil => rfl
  | cons b rest ih =>
    obtain ⟨hb, hrest⟩ := List.forall_mem_cons.mp h
    rw [branchesPlaced, allPlaced_of_forall hb, ih hrest]
    rfl

theorem grows_isPlaced : Grows (fun _ => True) (isPlaced · ·) where
  element _ hbody := allPlaced_of_forall hbody
  text := rfl
  output := rfl
  choice {_ _ _ otherwise} hbranches hotherwise := by
    have hchosen := branchesPlaced_of_forall hbranches
    cases otherwise with
    | none => simp only [isPlaced, hchosen, Bool.and_self]
    | some body =>
      simp only [isPlaced, hchosen, allPlaced_of_forall (hotherwise body rfl), Bool.and_self]
  loop hbody := allPlaced_of_forall hbody
  binding hplace := decide_eq_true hplace
  store := rfl
  link := rfl

end Statement

variable {b : MarkupBlock} {result : Except Fault Template}

/-- The bindings of every block of a template stand where they may. -/
theorem Template.read_isPlaced {file source : String} {t : Template}
    (h : Template.read file source = .ok t) (hb : .markup b ∈ t.blocks) :
    Statement.allPlaced .block b.body := by
  have hblocks := Template.parser_gives (T := fun _ _ => True) (fun _ => .any _)
    (MarkupBlock.parser_gives Statement.grows_isPlaced (.any _))
  have hread := Template.of_read hblocks ⟨fun _ _ => trivial, trivial⟩ h
  exact Statement.allPlaced_of_forall (hread.2 b (List.mem_filterMap.mpr ⟨_, hb, rfl⟩))

/-- Markup becomes one function, and styles and imports become none. -/
def Block.functions (scope : BlockScope) : Block → Script.Code
  | .markup b => [b.lower scope]
  | .style _ | .importModule .. | .importNames .. => []

/-- The functions of a template are those of its blocks, in their order. -/
theorem Template.lower_eq_flatMap (t : Template) (scope : BlockScope) :
    t.lower scope = t.blocks.flatMap (Block.functions scope) := by
  rw [lower, markupBlocks]
  induction t.blocks with
  | nil => rfl
  | cons b blocks ih =>
    rw [List.flatMap_cons, ← ih]
    cases b <;> rfl

theorem MarkupBlock.lower_mem {t : Template} (hb : .markup b ∈ t.blocks) (scope : BlockScope) :
    b.lower scope ∈ t.lower scope := by
  rw [t.lower_eq_flatMap]
  exact List.mem_flatMap_of_mem hb (List.mem_singleton_self _)

/-- The block of a template that has no other. -/
def onlyBlock : Except Fault Template → Option MarkupBlock
  | .ok ⟨[.markup b], _⟩ => some b
  | _ => none

theorem onlyBlock_eq_some (h : onlyBlock result = some b) :
    ∃ t, result = .ok t ∧ .markup b ∈ t.blocks := by
  unfold onlyBlock at h
  split at h
  · cases h
    exact ⟨_, rfl, List.mem_singleton_self _⟩
  · cases h

theorem exists_of_onlyBlock {p : MarkupBlock → Bool} (h : (onlyBlock result).any p) :
    ∃ t b, result = .ok t ∧ .markup b ∈ t.blocks ∧ p b := by
  cases hb : onlyBlock result with
  | none => rw [hb] at h; cases h
  | some b =>
    rw [hb] at h
    obtain ⟨t, ht, hmem⟩ := onlyBlock_eq_some hb
    exact ⟨t, b, ht, hmem, h⟩

end Stencil
