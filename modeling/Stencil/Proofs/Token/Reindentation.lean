import Stencil.Proofs.Token.Widening

/-!
# Relative margins

How wide the margins of a source are does not matter, only how they compare with each other. Its
lines may get any others in the same order, none for none, and it still has the same tokens. Blank
lines, and lines that start inside brackets or a string, have no margin that counts and keep theirs.
-/
namespace Stencil

open Text (Cluster)
open Lexeme (growth widenFrom)
open List

/-- The line with a margin of `f w` spaces in place of `w`. -/
def reindentLine (f : Nat → Nat) (line : List Char) : List Char :=
  List.replicate (f (line.takeWhile (· = ' ')).length) ' ' ++ line.dropWhile (· = ' ')

/-- The lines after `before`, those with other margins whose margins count. -/
def reindentLines (f : Nat → Nat) (before : List Char) : List (List Char) → List Char
  | [] => []
  | line :: lines =>
    (if hasContent line && !leavesOpen (String.ofList before) then reindentLine f line else line) ++
      reindentLines f (before ++ line) lines

/-- The source with a margin of `f w` spaces in place of `w`, where margins count. -/
def reindent (f : Nat → Nat) (source : String) : String :=
  String.ofList (reindentLines f [] (linesOf source.toList))

variable {f : Nat → Nat} {line rest before : List Char}

/-! ## One line -/

theorem dropWhile_ne_nil (h : hasContent line) : line.dropWhile (· = ' ') ≠ [] := by
  intro hnil
  rw [hasContent, hnil] at h
  cases h

theorem getLast?_reindentLine (h : hasContent line) (f : Nat → Nat) :
    (reindentLine f line).getLast? = line.getLast? := by
  conv_rhs => rw [← @takeWhile_append_dropWhile _ (· = ' ') line]
  rw [reindentLine, getLast?_append_of_ne_nil _ (dropWhile_ne_nil h),
    getLast?_append_of_ne_nil _ (dropWhile_ne_nil h)]

theorem segment_reindentLine (hbelow : ∀ width, width ≤ f width) (hzero : f 0 = 0)
    (line : List Char) :
    Cluster.segmentFrom .other (reindentLine f line) =
      replicate (f (line.takeWhile (· = ' ')).length - (line.takeWhile (· = ' ')).length)
        ⟨' ', []⟩ ++ Cluster.segmentFrom .other line := by
  have hspaces : line.takeWhile (· = ' ') =
      replicate (line.takeWhile (· = ' ')).length ' ' :=
    eq_replicate_of_mem fun c hc => by simpa using mem_takeWhile_imp hc
  have hline : replicate (line.takeWhile (· = ' ')).length ' ' ++
      line.dropWhile (· = ' ') = line := by
    rw [← hspaces, takeWhile_append_dropWhile]
  rw [reindentLine]
  generalize (line.takeWhile (· = ' ')).length = width at hline ⊢
  cases width with
  | zero =>
    rw [hzero]
    exact congrArg (Cluster.segmentFrom .other) hline
  | succ width =>
    rw [← Nat.sub_add_cancel (hbelow (width + 1)), replicate_add, append_assoc, hline,
      Nat.add_sub_cancel]
    rw [replicate_succ, cons_append] at hline
    rw [← hline, segmentFrom_spaces]

/-- What is added in front of a line is told by its characters. -/
theorem growth_line (hne : line ≠ []) (hfeed : '\n' ∉ line.dropLast)
    (hend : rest = [] ∨ line.getLast? = some '\n') (n : Option Nesting) :
    growth f n true (Cluster.segmentFrom .other (line ++ rest)) =
      if hasContent line && !n.any Nesting.isOpen then
        replicate (f (line.takeWhile (· = ' ')).length - (line.takeWhile (· = ' ')).length)
          ⟨' ', []⟩
      else [] := by
  have hblank : decide (Lexeme.blankLines (Cluster.segmentFrom .other (line ++ rest)) = 0) =
      hasContent line := by
    rw [Bool.eq_iff_iff, decide_eq_true_iff, Lexeme.blankLines_line hne hfeed hend]
  rw [growth, hblank, Bool.true_and, Bool.and_comm, Lexeme.margin_line]
  by_cases hcontent : hasContent line
  · have hspaces : (line ++ rest).takeWhile (· = ' ') = line.takeWhile (· = ' ') := by
      rw [takeWhile_append, if_neg]
      intro hall
      have hlength := congrArg length (@takeWhile_append_dropWhile _ (· = ' ') line)
      rw [length_append, hall, Nat.add_eq_left] at hlength
      exact dropWhile_ne_nil hcontent (length_eq_zero_iff.mp hlength)
    rw [hspaces]
  · rw [Bool.not_eq_true] at hcontent
    rw [hcontent, Bool.false_and]
    rfl

/-- The first line gets its margin, and the lines after it theirs. -/
theorem widenFrom_line (hbelow : ∀ width, width ≤ f width) (hzero : f 0 = 0) (hne : line ≠ [])
    (hfeed : '\n' ∉ line.dropLast) (hend : rest = [] ∨ line.getLast? = some '\n')
    (n : Option Nesting) :
    widenFrom f n true (Cluster.segmentFrom .other (line ++ rest)) =
      Cluster.segmentFrom .other
          (if hasContent line && !n.any Nesting.isOpen then reindentLine f line else line) ++
        widenFrom f (n.bind (·.after (Cluster.segmentFrom .other line))) true
          (Cluster.segmentFrom .other rest) := by
  have hclusters : Cluster.segmentFrom .other (line ++ rest) ≠ [] := by
    obtain ⟨c, cs, rfl⟩ := exists_cons_of_ne_nil hne
    obtain ⟨joined, ks, hks⟩ := Cluster.segmentFrom_ne_nil .other c (cs ++ rest)
    rw [cons_append, hks]
    exact cons_ne_nil _ _
  have hline : Cluster.segmentFrom .other
        (if hasContent line && !n.any Nesting.isOpen then reindentLine f line else line) =
      growth f n true (Cluster.segmentFrom .other (line ++ rest)) ++
        Cluster.segmentFrom .other line := by
    rw [growth_line hne hfeed hend]
    split
    · exact segment_reindentLine hbelow hzero line
    · rfl
  rw [hline, append_assoc, Lexeme.widenFrom_eq _ _ _ _ hclusters, segmentFrom_line hend,
    Lexeme.widenFrom_append (lead_of_mem_line hfeed)]
  rcases hend with rfl | hend
  · rfl
  · rw [Lexeme.startsLine_of_endsLine (endsLine_line hend)]

/-! ## All lines -/

theorem after_line (hbefore : before = [] ∨ before.getLast? = some '\n') (line : List Char) :
    Nesting.after {} (Cluster.segmentFrom .other (before ++ line)) =
      (Nesting.after {} (Cluster.segmentFrom .other before)).bind
        (·.after (Cluster.segmentFrom .other line)) := by
  rcases hbefore with rfl | hfeed
  · rfl
  · rw [Cluster.segmentFrom_lineFeed hfeed]
    exact foldlM_append

theorem segment_reindentLines (hbelow : ∀ width, width ≤ f width) (hzero : f 0 = 0)
    {lines : List (List Char)} (h : AreLines lines)
    (hbefore : before = [] ∨ before.getLast? = some '\n') :
    Cluster.segmentFrom .other (reindentLines f before lines) =
      widenFrom f (Nesting.after {} (Cluster.segmentFrom .other before)) true
        (Cluster.segmentFrom .other lines.flatten) := by
  induction lines generalizing before with
  | nil => rfl
  | cons line lines ih =>
    obtain ⟨hne, hfeed, hend, hlater⟩ := h
    have hopen : leavesOpen (String.ofList before) =
        (Nesting.after {} (Cluster.segmentFrom .other before)).any Nesting.isOpen := by
      rw [leavesOpen, Cluster.segment, String.toList_ofList]
    have hrest : lines.flatten = [] ∨ line.getLast? = some '\n' :=
      hend.imp_left fun hnil => by rw [hnil]; rfl
    rw [flatten_cons, widenFrom_line hbelow hzero hne hfeed hrest, ← after_line hbefore,
      reindentLines, hopen]
    rcases hend with rfl | hend
    · rw [reindentLines, segmentFrom_line (.inl rfl)]
      rfl
    · have hbreak : (if hasContent line && !(Nesting.after {} (Cluster.segmentFrom .other
          before)).any Nesting.isOpen then reindentLine f line else line).getLast? =
            some '\n' := by
        split
        · next hgrows =>
          rw [getLast?_reindentLine (Bool.and_eq_true_iff.mp hgrows).1, hend]
        · exact hend
      rw [segmentFrom_line (.inr hbreak), ih hlater]
      exact .inr ((getLast?_append_of_ne_nil _ hne).trans hend)

theorem segment_reindent (hbelow : ∀ width, width ≤ f width) (hzero : f 0 = 0)
    (source : String) :
    Cluster.segment (reindent f source) = widenFrom f (some {}) true (Cluster.segment source) := by
  rw [Cluster.segment, Cluster.segment, reindent, String.toList_ofList,
    segment_reindentLines hbelow hzero (areLines_linesOf _) (.inl rfl), flatten_linesOf]
  rfl

namespace Scan

variable {file source : String} {e : Token}

/-- A source without a fault has none with other margins either, and the kinds and texts of its
tokens are the same. -/
theorem only_order_of_margins (hmono : StrictMono f) (hzero : f 0 = 0)
    (h : (Scan.of file source).ending = .eof e) :
    (∃ e', (Scan.of file (reindent f source)).ending = .eof e') ∧
      (Scan.of file (reindent f source)).all.map Token.mark =
        (Scan.of file source).all.map Token.mark := by
  have hstart : (Lexer.start file source).cursor.Widens f []
      (Lexer.start file (reindent f source)).cursor :=
    ⟨segment_reindent (fun width => hmono.le_apply) hzero source, rfl, Nat.le_refl 1, Nat.le_refl 1⟩
  obtain ⟨scan, hends, htokens, hending⟩ := Twin.ends (w := Lexeme.widened f hmono hzero)
    (Lexeme.ready_widened hmono hzero) (l := Lexer.start file source) hstart (Scan.ends_of file source)
    fun t fault hfault => by rw [h] at hfault; cases hfault
  have htwin : (Lexeme.widened f hmono hzero).twin (Lexer.start file source)
      (Lexer.start file (reindent f source)).cursor = Lexer.start file (reindent f source) :=
    congrArg (fun level => { Lexer.start file (reindent f source) with indents := [level] }) hzero
  rw [htwin] at hends
  rw [Scan.of_ends hends]
  rcases hending with ⟨t, t', ht, ht', hmark⟩ | ⟨t, t', fault, fault', ht, -⟩
  · refine ⟨⟨t', ht'⟩, ?_⟩
    rw [Scan.all, Scan.all, List.map_append, List.map_append, ht, ht']
    have hmarks : scan.tokens.map Token.mark = (Scan.of file source).tokens.map Token.mark := by
      rw [← List.forall₂_eq_eq_eq, List.forall₂_map_left_iff, List.forall₂_map_right_iff]
      exact htokens.flip
    exact congrArg₂ (· ++ [·]) hmarks hmark
  · rw [h] at ht
    cases ht

/-- Each margin by one wider: the line inside the brackets and the comment keep theirs. -/
theorem wider_margins :
    StrictMono (fun width => if width = 0 then 0 else width + 1) ∧
      reindent (fun width => if width = 0 then 0 else width + 1)
          "html:\n  p(\n c)\n # )\n    b\n" =
        "html:\n   p(\n c)\n # )\n     b\n" ∧
      (Scan.of "page" "html:\n   p(\n c)\n # )\n     b\n").all.map Token.mark =
        (Scan.of "page" "html:\n  p(\n c)\n # )\n    b\n").all.map Token.mark := by
  have hmono : StrictMono (fun width => if width = 0 then 0 else width + 1) := by
    intro width wider hlt
    dsimp only
    split <;> split <;> omega
  have hend : (Scan.of "page" "html:\n  p(\n c)\n # )\n    b\n").ending =
      .eof ⟨.eof, "", 6, 1, 26⟩ := by decide +kernel
  have hreindent : reindent (fun width => if width = 0 then 0 else width + 1)
      "html:\n  p(\n c)\n # )\n    b\n" = "html:\n   p(\n c)\n # )\n     b\n" := by
    decide +kernel
  have hmarks := (only_order_of_margins hmono rfl hend).2
  rw [hreindent] at hmarks
  exact ⟨hmono, hreindent, hmarks⟩

end Scan
end Stencil
