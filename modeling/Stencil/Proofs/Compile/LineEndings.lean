import Stencil.Compile
import Stencil.Proofs.Template.FirstFault
import Stencil.Proofs.Token.LineEndings

/-!
# The style of line breaks does not matter

A source and the same source with a carriage return in front of every line feed have alike tokens, if
no string goes over a line break. So they compile to the same, or fail with the same report.
-/
namespace Stencil

open Text (Cluster crlf)
open Text.Cluster (bytes bytes_append utf8ByteSize_text)
open Stencil.Parser List

namespace Text.Cluster

/-- Places in a source are told apart by their offsets. -/
theorem eq_of_bytes_eq {source before passed : List Cluster} (hbefore : before <+: source)
    (hpassed : passed <+: source) (h : bytes before = bytes passed) : before = passed := by
  have hpos : ∀ {ks : List Cluster} {ls : List Cluster}, bytes (ks ++ ls) = bytes ks → ls = [] := by
    intro ks ls heq
    rw [bytes_append] at heq
    have := length_le_bytes ls
    exact length_eq_zero_iff.mp (by omega)
  rcases prefix_or_prefix_of_prefix hbefore hpassed with ⟨later, rfl⟩ | ⟨later, rfl⟩
  · rw [hpos h.symm, append_nil]
  · rw [hpos h, append_nil]

end Text.Cluster

namespace Token

variable {source : String} {t u : Token}

/-- Only strings go over line breaks. -/
theorem SpelledIn.not_mem (h : t.SpelledIn (Cluster.segment source)) (hreturn : '\r' ∉ source.toList)
    (hstring : t.kind = .string → '\n' ∉ t.literal.toList) (hspelled : t.kind.isSpelled) :
    '\n' ∉ t.literal.toList := by
  obtain ⟨ks, hks, hliteral, hspells⟩ := h.literal hspelled
  have hparts : (∀ k ∈ ks, k.lead ≠ '\n') → '\n' ∉ t.literal.toList := by
    intro hlead
    rw [hliteral]
    exact Lexer.not_mem_text (fun k hk => Cluster.isFed_segment hreturn k (hks.subset hk)) hlead
  have hother : ∀ {part : Char → Bool}, part '\n' = false → (∀ k ∈ ks, part k.lead) →
      '\n' ∉ t.literal.toList := by
    intro part hpart hall
    refine hparts fun k hk hlead => ?_
    have hk := hall k hk
    rw [hlead, hpart] at hk
    cases hk
  generalize hkind : t.kind = kind at hspells hspelled
  cases hspells with
  | word _ hall => exact hother (by decide) hall
  | styleWord _ hall => exact hother (by decide) hall
  | number _ hall =>
    refine hparts fun k hk hlead => ?_
    rcases hall k hk with hdigit | hline | hdot
    · rw [hlead] at hdigit
      exact absurd hdigit (by decide)
    · exact absurd (hlead.symm.trans hline) (by decide)
    · exact absurd (hlead.symm.trans hdot) (by decide)
  | string => exact hstring hkind
  | @sign _ k next ks hsign =>
    have hlength := Lexer.operator_length hsign hspelled
    obtain rfl : ks = [] := length_eq_zero_iff.mp (by omega)
    refine hparts fun j hj hlead => ?_
    obtain rfl := mem_singleton.mp hj
    rw [hlead] at hsign
    cases hsign

theorem Returns.position {source : List Cluster} (h : t.Returns source u) (file : String) :
    u.position file = t.position file := by
  rw [Token.position, Token.position, h.line, h.column]

/-- Messages show of a token its kind, and its literal if it is spelled. -/
theorem describe_eq (hkind : u.kind = t.kind)
    (hliteral : t.kind.isSpelled → u.literal = t.literal) : u.describe = t.describe := by
  unfold describe
  rw [hkind]
  split
  case h_1 heq | h_2 heq | h_3 heq | h_4 heq => rw [hliteral (by rw [heq]; rfl)]
  case h_5 => rfl

/-- A fault at a token reads the same. -/
theorem report_expected (hkind : u.kind = t.kind)
    (hliteral : t.kind.isSpelled → u.literal = t.literal) (position : Position)
    (what : Expectation) :
    Fault.report ⟨position, .expected what u⟩ = Fault.report ⟨position, .expected what t⟩ := by
  have hmessage : (Cause.expected what u).message = (Cause.expected what t).message :=
    congrArg ("expected " ++ what.text ++ ", got " ++ ·) (describe_eq hkind hliteral)
  have hhint : (Cause.expected what u).hint = (Cause.expected what t).hint := by
    cases what with
    | elementEnd => simp only [Cause.hint, hkind]
    | _ => rfl
  simp only [Fault.report, Fault.diagnostic, hmessage, hhint]

/-- Two pieces of names follow each other without a gap on both sides or on none. -/
theorem Returns.joined {source : List Cluster} {t' u' : Token} (h : t.Returns source u)
    (h' : t'.Returns source u') (hfed : ∀ k ∈ source, k.IsFed) (hfeed : '\n' ∉ t.literal.toList)
    (ht : isNamePiece t) (ht' : isNamePiece t') :
    u'.offset = u.stop ↔ t'.offset = t.stop := by
  obtain ⟨before, taken, rest, hsource, hoffset, hliteral, hplace⟩ := h.place ht
  obtain ⟨before', taken', rest', hsource', hoffset', -, hplace'⟩ := h'.place ht'
  have htaken : taken.map Cluster.returned = taken := by
    refine Cluster.IsFed.map_returned (fun k hk => hfed k ?_) ?_
    · rw [hsource]
      exact mem_append_right _ (mem_append_left _ hk)
    · rwa [hliteral, Cluster.text, String.toList_ofList] at hfeed
  have hstop : t.stop = bytes (before ++ taken) := by
    rw [stop, hoffset, hliteral, utf8ByteSize_text, bytes_append]
  have hstop' : u.stop = bytes ((before ++ taken).map Cluster.returned) := by
    rw [stop, hplace, h.literal hfeed, hliteral, utf8ByteSize_text, map_append, htaken,
      bytes_append]
  have hwhole : before ++ taken <+: source := ⟨rest, by rw [hsource, append_assoc]⟩
  have hearlier : before' <+: source := ⟨taken' ++ rest', hsource'.symm⟩
  rw [hstop, hstop', hoffset', hplace']
  constructor
  · intro heq
    have hsame := Cluster.eq_of_bytes_eq (hearlier.map Cluster.returned) (hwhole.map _) heq
    have hlength : before'.length = (before ++ taken).length := by
      rw [← length_map Cluster.returned, hsame, length_map]
    rw [prefix_iff_eq_take.mp hearlier, hlength, ← prefix_iff_eq_take.mp hwhole]
  · intro heq
    rw [Cluster.eq_of_bytes_eq hearlier hwhole heq]

end Token

namespace Scan

variable {file source : String}

theorem returns_crlf (file : String) (h : '\r' ∉ source.toList) :
    (Scan.of file source).Returns (Cluster.segment source) (Scan.of file (crlf source)) := by
  have hstart : Lexer.start file (crlf source) = { Lexer.start file source with
      cursor := (Lexer.start file source).cursor.returned [] } := by
    rw [Lexer.start, Cluster.segment_crlf h]
    rfl
  obtain ⟨scan, hends, hreturns⟩ := Lexer.ends_returning (Cluster.isFed_segment h)
    ⟨[], rfl, rfl, rfl⟩ (Scan.ends_of file source)
  rw [← hstart] at hends
  rwa [Scan.of_ends hends]

/-- Scans of both sources have related tokens, if line feeds stand in line breaks only. -/
def Returns.relocation {source : List Cluster} {scan scan' : Scan} (h : scan.Returns source scan')
    (hfed : ∀ k ∈ source, k.IsFed) {file : String} {split : String → List Segment}
    (hended : (scan.reading file split).IsEnded) : Relocation where
  left := ⟨file, scan.ending, split⟩
  right := ⟨file, scan'.ending, split⟩
  lines := 0
  more := []
  whole := True
  counted := False
  token t u := (t.kind.isSpelled = true → '\n' ∉ t.literal.toList) ∧ t.Returns source u
  fault f g := g.report = f.report
  kind h := h.2.kind
  literal h hspelled := h.2.literal (h.1 hspelled)
  position h _ := h.2.position file
  joined h h' ht ht' := h.2.joined h'.2 hfed (h.1 (isSpelled_of_isNamePiece ht)) ht ht'
  split _ _ _ _ := rfl
  ending _ := ⟨fun hspelled => absurd hspelled hended.not_isSpelled, h.ending⟩
  expected := by
    intro _ t u h what
    rw [h.2.position file]
    exact Token.report_expected h.2.kind (fun hspelled => h.2.literal (h.1 hspelled)) _ what
  refused := by
    intro _ t u h cause _ _
    rw [h.2.position file]
  stopped _ _ hcause := by
    unfold Reading.faultAt
    rcases h.stopped with ⟨t, u, fault, hleft, hright⟩ | ⟨t, u, hleft, hright⟩
    · rw [hleft, hright]
    · have hend := h.ending
      have hnot := hended.not_isSpelled
      rw [reading, hleft] at hnot
      rw [hleft, hright] at hend ⊢
      exact hcause ⟨fun hspelled => absurd hspelled hnot, hend⟩
  ended := hended
  partner h := absurd trivial h
  eof h := absurd trivial h
  follow h := absurd trivial h
  counts := False.elim

end Scan

section Crlf

variable {file source : String} (hreturn : '\r' ∉ source.toList)
  (hstrings : ∀ t ∈ (Scan.of file source).tokens, t.kind = .string → '\n' ∉ t.literal.toList)

include hreturn hstrings

theorem Template.read_crlf :
    (Template.read file (crlf source)).mapError Fault.report =
      (Template.read file source).mapError Fault.report := by
  have hscan := Scan.returns_crlf file hreturn
  obtain ⟨hspelled, -⟩ := Scan.spelledIn file source
  have hended := @Scan.isEnded file source Format.split
  rw [read_eq, read_eq]
  generalize Scan.of file (crlf source) = scan' at hscan ⊢
  generalize Scan.of file source = scan at hscan hspelled hended hstrings ⊢
  have htokens : (hscan.relocation (Cluster.isFed_segment hreturn) hended).Tokens scan.tokens
      scan'.tokens :=
    (forall₂_and_left ..).mpr ⟨fun t ht => (hspelled t ht).not_mem hreturn (hstrings t ht),
      hscan.tokens⟩
  rcases Relocation.same (fun h => parser_tracks h.whole) ⟨trivial, rfl, id⟩ rfl htokens
    (rfl : _ = Reading.mk file _ Format.split) (rfl : _ = Reading.mk file _ Format.split) with
    ⟨t, hleft, hright⟩ | ⟨f, g, hleft, hright, hreport⟩
  · exact (congrArg (Except.mapError _) hright).trans (congrArg (Except.mapError _) hleft).symm
  · refine (congrArg (Except.mapError _) hright).trans ?_
    exact (congrArg Except.error hreport).trans (congrArg (Except.mapError _) hleft).symm

/-- The style of line breaks does not matter: with carriage returns a source compiles to the same, or
fails with the same report. -/
theorem compile_crlf (o : Options) :
    (compile file (crlf source) o).mapError Fault.report =
      (compile file source o).mapError Fault.report := by
  have hread := Template.read_crlf hreturn hstrings
  rw [compile, compile]
  generalize Template.read file (crlf source) = result' at hread ⊢
  generalize Template.read file source = result at hread ⊢
  cases result with
  | ok template =>
    cases result' with
    | ok template' =>
      cases hread
      rfl
    | error fault' => cases hread
  | error fault =>
    cases result' with
    | ok template' => cases hread
    | error fault' => exact congrArg Except.error (Except.error.inj hread)

end Crlf

/-- A line break within brackets, a blank line, a string and an unexpected end of the text. -/
def brokenLines : String := "html:\n  p(\n    title=\"a\"\n  ) b\n\n  q("

theorem brokenLines_compile_crlf :
    crlf brokenLines = "html:\r\n  p(\r\n    title=\"a\"\r\n  ) b\r\n\r\n  q(" ∧
      (compile "" (crlf brokenLines) { }).mapError Fault.report =
        (compile "" brokenLines { }).mapError Fault.report := by
  have hreturn : '\r' ∉ brokenLines.toList := by decide +kernel
  have hstrings : ∀ t ∈ (Scan.of "" brokenLines).tokens, t.kind = .string →
      '\n' ∉ t.literal.toList := by
    decide +kernel
  exact ⟨by decide +kernel, compile_crlf hreturn hstrings { }⟩

end Stencil
