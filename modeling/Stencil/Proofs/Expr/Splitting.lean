import Stencil.Proofs.Expr.Lines
import Stencil.Proofs.Script.Quoting

/-!
# Literals and format strings read back

The literal that is written for a text stands for that text, and the text that is written for the
segments of a format string falls into the same segments, if the expressions in it are read back.
-/
namespace Stencil

open Written List

namespace Literal

theorem unescape_escape (c : Char) (cs : List Char) :
    unescape (escape c ++ cs) = (unescape cs).map (c :: ·) := by
  unfold escape
  split
  · next h => subst h; rfl
  split
  · next h => subst h; rfl
  split
  · next h => subst h; rfl
  split
  · next hn hr ht h =>
    have hescaped : escaped c = c := by
      rcases Bool.or_eq_true_iff.mp h with hc | hc <;> rw [of_decide_eq_true hc] <;> rfl
    rw [cons_append, singleton_append, unescape, hescaped]
  · next h =>
    have hslash : c ≠ '\\' := fun heq => h (by simp [heq])
    exact unescape_cons hslash cs

theorem unescape_flatMap (text : List Char) : unescape (text.flatMap escape) = some text := by
  induction text with
  | nil => rfl
  | cons c text ih => rw [flatMap_cons, unescape_escape, ih, Option.map_some]

/-- A quoted text stands for itself. -/
theorem value_quote (text : List Char) : value (quote text) = .ok (String.ofList text) :=
  value_of_toList (quote_toList text) (unescape_flatMap text)

end Literal

namespace Format

/-- The pieces of a text whose braces were doubled. -/
def pieceOf (c : Char) : Piece := if isBrace c then .doubled c else .char c

variable {c : Char} {source : List Char}

theorem isBrace_cases (h : isBrace c) : c = '{' ∨ c = '}' := by
  simpa [isBrace] using h

theorem pieces_double (text rest : List Char) :
    pieces (double text ++ rest) = text.map pieceOf ++ pieces rest := by
  induction text with
  | nil => rfl
  | cons c text ih =>
    rw [double, flatMap_cons, ← double, append_assoc, map_cons, cons_append, ← ih, pieceOf]
    cases hc : isBrace c with
    | true =>
      rcases isBrace_cases hc with rfl | rfl
      · exact pieces.eq_1 _
      · exact pieces.eq_2 _
    | false =>
      have hopening : c ≠ '{' := by rintro rfl; cases hc
      have hclosing : c ≠ '}' := by rintro rfl; cases hc
      exact pieces.eq_4 c _ (fun _ heq _ => hopening heq) (fun _ heq _ => hclosing heq) hopening

theorem spanFrom_append (h : source.all (!isBrace ·)) (read rest : List Char) :
    spanFrom read (source ++ '}' :: rest) = .span (read.reverse ++ source) :: pieces rest := by
  induction source generalizing read with
  | nil => rw [nil_append, append_nil, spanFrom]
  | cons c source ih =>
    obtain ⟨hc, hsource⟩ := Bool.and_eq_true_iff.mp h
    have hopening : c ≠ '{' := by rintro rfl; cases hc
    have hclosing : c ≠ '}' := by rintro rfl; cases hc
    rw [cons_append, spanFrom.eq_4 read c _ hclosing (fun _ heq _ => hopening heq) hopening,
      ih hsource, reverse_cons, append_assoc, singleton_append]

/-- An expression in braces is a span. -/
theorem pieces_span (h : source.all (!isBrace ·)) (rest : List Char) :
    pieces ('{' :: source ++ '}' :: rest) = .span source :: pieces rest := by
  have hfront : ∀ cs, source ++ '}' :: rest = '{' :: cs → False := by
    intro cs heq
    cases source with
    | nil => cases heq
    | cons c source =>
      obtain rfl : c = '{' := (cons.inj heq).1
      cases h
  rw [cons_append, pieces.eq_3 _ hfront, spanFrom_append h]
  rfl

/-- Characters in front of an expression, or at the end, make one text. -/
theorem foldr_prepend {text : List Char} (hne : text ≠ []) {segments : List Segment}
    (hfront : segments.head?.all Segment.isExpr) :
    text.foldr (fun c s => Segment.prepend c.toString s) segments =
      .text (String.ofList text) :: segments := by
  induction text with
  | nil => exact absurd rfl hne
  | cons c text ih =>
    rw [foldr_cons]
    cases text with
    | nil =>
      rw [foldr_nil]
      cases segments with
      | nil => rfl
      | cons first rest =>
        cases first with
        | text t => cases hfront
        | expr x => rfl
    | cons d text =>
      have hcons : String.ofList (c :: d :: text) =
          String.singleton c ++ String.ofList (d :: text) := String.ofList_cons
      rw [ih (cons_ne_nil d text), hcons]
      rfl

theorem segments_pieceOf (read : String → Except Fault Expr) (text : List Char)
    (rest : List Piece) :
    segments read (text.map pieceOf ++ rest) =
      text.foldr (fun c s => Segment.prepend c.toString s) (segments read rest) := by
  induction text with
  | nil => rfl
  | cons c text ih =>
    rw [map_cons, cons_append, foldr_cons, ← ih, pieceOf]
    cases isBrace c <;> rfl

theorem trim_of_isSolid {d : Char} {cs ds : List Char} (hfirst : source = c :: cs)
    (hc : isSolid c) (hlast : source = ds ++ [d]) (hd : isSolid d) :
    Text.trim source = source := by
  have hcblank := not_isBlank_of_isSolid hc
  have hdblank := not_isBlank_of_isSolid hd
  have hdrop : source.dropWhile Text.isBlank = source := by
    rw [hfirst, dropWhile_cons_of_neg (by rw [hcblank]; exact Bool.false_ne_true)]
  rw [Text.trim, hdrop, hlast, reverse_append, reverse_singleton,
    singleton_append, dropWhile_cons_of_neg (by rw [hdblank]; exact Bool.false_ne_true),
    reverse_cons, reverse_reverse]

end Format

theorem head_unplacedSegments (segments : List Segment) :
    (unplacedSegments segments).head?.all Segment.isExpr =
      segments.head?.all Segment.isExpr := by
  cases segments with
  | nil => rfl
  | cons first rest => cases first <;> rfl

/-- A format string falls into the segments that it was written from. -/
theorem segments_formatText {read : String → Except Fault Expr} (segments : List Segment)
    (h : segmentsWritable segments)
    (hread : ∀ x, .expr x ∈ segments →
      ∃ y, read (String.ofList (line (x.written 0))) = .ok y ∧ y.unplaced = x.unplaced) :
    unplacedSegments (Format.segments read (Format.pieces (formatText segments))) =
      unplacedSegments segments := by
  induction segments with
  | nil => rfl
  | cons first rest ih =>
    have hlater := fun hrest => ih hrest fun x hx => hread x (mem_cons_of_mem _ hx)
    cases first with
    | text t =>
      simp only [segmentsWritable, Bool.and_eq_true] at h
      obtain ⟨⟨hne, hfront⟩, hrest⟩ := h
      have hchars : t.toList ≠ [] := by simpa using hne
      have hsegments := hlater hrest
      have hexpr : (Format.segments read (Format.pieces (formatText rest))).head?.all
          Segment.isExpr := by
        rw [← head_unplacedSegments, hsegments, head_unplacedSegments, hfront]
      rw [formatText, Format.pieces_double, Format.segments_pieceOf,
        Format.foldr_prepend hchars hexpr, unplacedSegments, hsegments, String.ofList_toList,
        unplacedSegments]
    | expr x =>
      simp only [segmentsWritable, Bool.and_eq_true] at h
      obtain ⟨⟨hx, hbraces⟩, hrest⟩ := h
      have hscans := x.scans hx 0 []
      obtain ⟨c, cs, hfirst, hc⟩ := hscans.first
      obtain ⟨ds, d, hlast, hd⟩ := hscans.last
      obtain ⟨y, hy, hsame⟩ := hread x mem_cons_self
      rw [formatText, Format.pieces_span hbraces, Format.segments,
        Format.trim_of_isSolid hfirst hc hlast hd, hy]
      dsimp only
      rw [unplacedSegments, unplacedSegments, hsame, hlater hrest]

end Stencil
