import Stencil.Proofs.Template.FirstFault
import Stencil.Proofs.Token.StringValues
import Stencil.Style.Sheet

/-!
# Refused literals

A reader refuses a literal only if it is that of a string that stands among its tokens and has no
value. So where every string of a source has a value, no literal is refused, and no default of a
parameter is without one.
-/
namespace Stencil

open Text (Cluster)

namespace Lexer

/-- A fault of the scan is none of those that readers find. -/
def IsLexical : Scanned → Prop
  | .ok _ => True
  | .error failure => failure.1.2.cause.isSyntax = false

variable {l : Lexer} {k : Cluster} {rest : List Cluster} {result : Scanned}

theorem Takes.isLexical (h : l.Takes k rest result) : IsLexical result := by
  cases h with
  | unterminated | unmatched | unexpected => rfl
  | _ => trivial

theorem Branches.isLexical (h : l.Branches result) : IsLexical result := by
  cases h with
  | gives _ hgives =>
    cases hgives with
    | cluster _ _ htakes => exact htakes.isLexical
    | _ => trivial
  | lays _ hlays =>
    cases hlays with
    | tab | uneven => rfl
    | _ => trivial

end Lexer

namespace Scan

variable {file source : String} {t : Token}

theorem isSyntax_ending {g : Fault} (h : (Scan.of file source).ending = .fault t g) :
    g.cause.isSyntax = false := by
  obtain ⟨m, n, -, hscan⟩ := (Scan.ends_of _ _).of_fault h
  have hlexical := m.scan_branches.isLexical
  rw [hscan] at hlexical
  exact hlexical

/-- The strings of a scan are closed by the quotes that open them. -/
def stringsClosed (s : Scan) : Bool :=
  s.tokens.all fun t => t.kind ≠ .string || Literal.isClosed t.literal

theorem stringsClosed_iff {s : Scan} : s.stringsClosed ↔
    ∀ t ∈ s.tokens, t.kind = .string → Literal.isClosed t.literal := by
  simp [stringsClosed, Decidable.imp_iff_not_or]

theorem kind_ending_ne_string (file source : String) :
    (Scan.of file source).ending.token.kind ≠ .string :=
  (@Scan.isEnded file source Format.split).ne TokenKind.noConfusion TokenKind.noConfusion

theorem exists_value_of_closed (hclosed : (Scan.of file source).stringsClosed)
    (ht : t ∈ (Scan.of file source).tokens) (hkind : t.kind = .string) :
    ∃ text, Literal.value t.literal = .ok text := by
  have hspelled := (Scan.spelledIn file source).1 t ht
  exact (hspelled.value_ok_iff hkind).mpr (stringsClosed_iff.mp hclosed t ht hkind)

/-- No literal of a source is refused if its strings are closed. -/
theorem not_refused (hclosed : (Scan.of file source).stringsClosed) {fault : Fault}
    (hgrounds : (Scan.of file source).Grounds fault) (literal : String) (flaw : Literal.Flaw) :
    fault.cause ≠ .badLiteral literal flaw := by
  intro hcause
  rcases hgrounds with ⟨t, hending⟩ | ⟨t, ht, hat⟩
  · have hlexical := isSyntax_ending hending
    rw [hcause] at hlexical
    cases hlexical
  · obtain ⟨hkind, hvalue⟩ := hat literal flaw hcause
    rcases List.mem_append.mp ht with ht | ht
    · obtain ⟨text, htext⟩ := exists_value_of_closed hclosed ht hkind
      rw [hvalue] at htext
      cases htext
    · rw [List.mem_singleton.mp ht] at hkind
      exact kind_ending_ne_string file source hkind

/-- What readers can make of the strings of a source: those that are closed have values, and if all
are closed, then none is refused and no default is without a value. They are all closed if quotes
and backslashes stand alone in the source. -/
theorem strings_have_values (file source : String) :
    (∀ t ∈ (Scan.of file source).tokens, t.kind = .string →
      ((∃ text, Literal.value t.literal = .ok text) ↔ Literal.isClosed t.literal = true)) ∧
    (marksStandAlone (Cluster.segment source) = true → (Scan.of file source).stringsClosed = true) ∧
    ((Scan.of file source).stringsClosed = true →
      (∀ fault, Template.read file source = .error fault ∨ Expr.read file source = .error fault →
        ∀ literal flaw, fault.cause ≠ .badLiteral literal flaw) ∧
      ∀ t, Template.read file source = .ok t → ∀ b ∈ t.styleBlocks, ∀ p ∈ b.params,
        ∀ literal ∈ p.fallback, ∃ text, Literal.value literal = .ok text) := by
  have hspelled := (Scan.spelledIn file source).1
  refine ⟨fun t ht hkind => (hspelled t ht).value_ok_iff hkind, fun halone => ?_,
    fun hclosed => ⟨?_, fun template hread => ?_⟩⟩
  · refine stringsClosed_iff.mpr fun t ht hkind => ?_
    exact ((hspelled t ht).value_ok_iff hkind).mp ((hspelled t ht).exists_value hkind halone)
  · rintro fault (hread | hread)
    · rw [Template.read_eq] at hread
      exact not_refused hclosed (of_error (fun h => Template.parser_tracks h.whole)
        (Scan.isEnded file source) hread).2
    · exact not_refused hclosed (of_error (fun h => Expr.whole_tracks h) (Scan.isEnded file source) hread).2
  · -- The token at the end is no string.
    exact Template.of_read (Template.parser_fallbacks fun s => ∃ text, Literal.value s = .ok text)
      ⟨fun t => exists_value_of_closed hclosed,
        fun hkind => absurd hkind (kind_ending_ne_string file source)⟩ hread

/-- A quote and a backslash that are escaped, and a mark on a letter of a default. -/
def escapesSource : String :=
  "css(fg=\"re\u0301d\"):\n  p\n    color: fg\nf:\n  'it\\'s \\\\'\n"

theorem escapesSource_has_values :
    marksStandAlone (Cluster.segment escapesSource) = true ∧
    (∃ t ∈ (Scan.of "page" escapesSource).tokens, t.kind = .string ∧ t.literal = "'it\\'s \\\\'" ∧
      ∃ text, Literal.value t.literal = .ok text) ∧
    ∃ t, Template.read "page" escapesSource = .ok t ∧
      t.styleBlocks.map (·.params.map (·.fallback)) = [[some "\"re\u0301d\""]] ∧
      ∀ b ∈ t.styleBlocks, ∀ p ∈ b.params, ∀ literal ∈ p.fallback,
        ∃ text, Literal.value literal = .ok text := by
  obtain ⟨hvalues, halone, hclosed⟩ := strings_have_values "page" escapesSource
  have hmarks : marksStandAlone (Cluster.segment escapesSource) = true := by decide +kernel
  have hstring : ∃ t ∈ (Scan.of "page" escapesSource).tokens,
      t.kind = .string ∧ t.literal = "'it\\'s \\\\'" := by
    decide +kernel
  obtain ⟨t, ht, hkind, hliteral⟩ := hstring
  have hvalue := (hvalues t ht hkind).mpr (stringsClosed_iff.mp (halone hmarks) t ht hkind)
  obtain ⟨template, hread, hfallbacks⟩ := @exists_of_toOption _ _ (Template.read "page" escapesSource)
    (fun t => t.styleBlocks.map (·.params.map (·.fallback)) = [[some "\"re\u0301d\""]])
    (by decide +kernel)
  exact ⟨hmarks, ⟨t, ht, hkind, hliteral, hvalue⟩, template, hread, of_decide_eq_true hfallbacks,
    (hclosed (halone hmarks)).2 template hread⟩

/-- A mark on the closing quote leaves a literal unquoted, and a mark on a backslash leaves another
backslash in front of the quote. The readers refuse both, and the value of a default is what stands
between its ends. -/
theorem marks_on_quotes_refused :
    (∃ t ∈ (Scan.of "page" "f:\n  \"a\"\u0301\n").tokens, t.kind = .string ∧
      (Literal.value t.literal).toOption = none) ∧
    (Session.start "page" "f:\n  \"a\"\u0301\n").read.2.fault.map (·.cause) =
      some (.badLiteral "\"a\"\u0301" .unquoted) ∧
    (Session.start "page" "f:\n  \"a\\\u0301\\\"\n").read.2.fault.map (·.cause) =
      some (.badLiteral "\"a\\\u0301\\\"" .danglingBackslash) ∧
    (∃ t, Template.read "page" "css(fg=\"red\"\u0301):\n  p\n    color: fg\n" = .ok t ∧
      t.styleBlocks.map (·.params.map (·.fallback)) = [[some "\"red\"\u0301"]]) ∧
    Literal.looseValue "\"red\"\u0301" = Literal.stripped "\"red\"\u0301" := by
  obtain ⟨template, hread, hfallback⟩ := @exists_of_toOption _ _
    (Template.read "page" "css(fg=\"red\"\u0301):\n  p\n    color: fg\n")
    (fun t => t.styleBlocks.map (·.params.map (·.fallback)) = [[some "\"red\"\u0301"]])
    (by decide +kernel)
  exact ⟨by decide +kernel, by decide +kernel, by decide +kernel,
    ⟨template, hread, of_decide_eq_true hfallback⟩, by decide +kernel⟩

end Scan

end Stencil
