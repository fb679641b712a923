import Stencil.Proofs.Expr.NormalForm

/-!
# How readings end

A reader goes over each token of a source at most once, and it goes on with a loop or a nested part
only with fewer tokens than before. Only the end of an expression is gone over as well, one step past
the last token. What it has split on the way are values of strings of the source, and each is shorter
than the literal it is the value of.

To split a text is to read the sources in its braces, and these are shorter than the text. They have
no braces, so splitting goes no deeper: the strings in them are plain, and no dictionary is there.
-/
namespace Stencil

open Stencil.Parser
open Format (isBrace pieces segments)
open List

/-! ## The texts that are split -/

namespace Literal

theorem utf8Size_escaped_le (c : Char) : (escaped c).utf8Size ≤ c.utf8Size := by
  unfold escaped
  split
  · next h => subst h; decide
  split
  · next h => subst h; decide
  split
  · next h => subst h; decide
  · exact Nat.le_refl _

theorem byteSize_unescape_le {cs text : List Char} (h : unescape cs = some text) :
    Text.byteSize text ≤ Text.byteSize cs := by
  fun_induction unescape cs generalizing text with
  | case1 => cases h; exact Nat.le_refl _
  | case2 => cases h
  | case3 c cs ih =>
    obtain ⟨later, hlater, rfl⟩ := Option.map_eq_some_iff.mp h
    have hescaped := utf8Size_escaped_le c
    have hle := ih hlater
    simp only [Text.byteSize]
    omega
  | case4 c cs _ _ ih =>
    obtain ⟨later, hlater, rfl⟩ := Option.map_eq_some_iff.mp h
    have hle := ih hlater
    simp only [Text.byteSize]
    omega

/-- The value of a literal lacks the two quotes at least. -/
theorem utf8ByteSize_value_le {literal text : String} (h : value literal = .ok text) :
    text.utf8ByteSize + 2 ≤ literal.utf8ByteSize := by
  obtain ⟨quote, body, hliteral, hbody⟩ := of_value h
  have hquote := quote.utf8Size_pos
  have hle := byteSize_unescape_le hbody
  rw [← String.ofList_toList (s := literal), ← String.ofList_toList (s := text), hliteral,
    Text.utf8ByteSize_ofList, Text.utf8ByteSize_ofList, Text.byteSize, Text.byteSize_append]
  simp only [Text.byteSize]
  omega

end Literal

/-- The text is shorter than a string of the scan, by two quotes at least. -/
def Scan.HasLonger (scan : Scan) (text : String) : Prop :=
  ∃ t ∈ scan.tokens, t.kind = .string ∧ text.utf8ByteSize + 2 ≤ t.literal.utf8ByteSize

section Readings

variable (file source : String)

/-- The tokens of a source, each related to itself. -/
abbrev Scan.counting : Relocation :=
  (Scan.of file source).relocation file (.refl _ Format.split) (Scan.isEnded file source) True

variable {file source}

theorem Scan.hasLonger_of_isText {text : String} (h : (Scan.counting file source).IsText text) :
    (Scan.of file source).HasLonger text := by
  obtain ⟨t, _, ⟨rfl, ht⟩, hkind, hvalue⟩ := h
  rcases mem_append.mp ht with ht | ht
  · exact ⟨t, ht, hkind, Literal.utf8ByteSize_value_le hvalue⟩
  · rw [mem_singleton.mp ht] at hkind
    exact absurd hkind ((@Scan.isEnded file source Format.split).ne TokenKind.noConfusion
      TokenKind.noConfusion)

/-- A reader that follows tokens is told on those of a source. -/
theorem Scan.paces_of_tracks {α : Type} {p : Parser α} {move : α → α}
    (hp : ∀ bound, Tracks (Scan.counting file source) bound anyKind move p p) :
    p.Paces ((Scan.of file source).reading file Format.split) (Scan.of file source).HasLonger 0
      (Scan.of file source).tokens := by
  have hlead := (hp _).run (Nat.lt_succ_self _) trivial
    (Scan.tokens_relocation (.refl _ Format.split) (Scan.isEnded file source))
  have hpaces := hlead.steps trivial
  rw [show (Scan.counting file source).more = [] from rfl, append_nil] at hpaces
  exact { hpaces with splits := fun text h => hasLonger_of_isText (hpaces.splits text h) }

/-- The end of a source may be gone over as well. -/
theorem Parser.Paces.expect_pure {α : Type} {reading : Reading} {T : String → Prop} {ts : List Token}
    (k : TokenKind) (a : α) : (expect k >>= fun _ => pure a).Paces reading T 1 ts := by
  unfold expect
  rw [bind_assoc]
  refine (Paces.of_nil rfl).bind fun t rest _ => ?_
  split
  · rw [bind_assoc]
    exact {
      advances := Nat.le_add_left _ _
      splits := fun _ h => by cases mem_singleton.mp h
      decreases := fun _ _ h => by cases mem_singleton.mp h
      lasts := fun h => by cases mem_singleton.mp h }
  · exact .of_nil rfl

theorem Template.parser_paces (file source : String) :
    Template.parser.Paces ((Scan.of file source).reading file Format.split)
      (Scan.of file source).HasLonger 0 (Scan.of file source).tokens :=
  Scan.paces_of_tracks fun _ => parser_tracks trivial

theorem Expr.whole_paces (file source : String) :
    Expr.whole.Paces ((Scan.of file source).reading file Format.split)
      (Scan.of file source).HasLonger 1 (Scan.of file source).tokens :=
  (Scan.paces_of_tracks fun _ => line_tracks).bind fun x _ _ => .expect_pure .eof x

end Readings

mutual

/-- No format string and no dictionary is in the expression. -/
def Expr.isPlain : Expr → Bool
  | .name .. | .string .. | .number .. => true
  | .new _ x | .not _ x | .attribute _ x _ => x.isPlain
  | .and _ x y | .or _ x y | .item _ x y | .arithmetic _ _ x y | .relation _ _ x y =>
    x.isPlain && y.isPlain
  | .call _ function arguments => function.isPlain && allPlain arguments
  | .list _ items => allPlain items
  | .format .. | .dictionary .. => false

def allPlain : List Expr → Bool
  | [] => true
  | x :: xs => x.isPlain && allPlain xs

end

theorem allPlain_of_forall {xs : List Expr} (h : ∀ x ∈ xs, x.isPlain) : allPlain xs := by
  induction xs with
  | nil => rfl
  | cons x xs ih =>
    obtain ⟨hx, hlater⟩ := forall_mem_cons.mp h
    exact Bool.and_eq_true_iff.mpr ⟨hx, ih hlater⟩

/-- A token of a source without braces. -/
structure Token.IsPlain (reading : Reading) (t : Token) : Prop where
  split : reading.split = Format.split
  opening : t.kind ≠ .opening .brace
  string : t.kind = .string → t.literal.toList.all (!isBrace ·)

theorem Token.SpelledIn.isPlain {t : Token} {file source : String}
    (ht : t.SpelledIn (Text.Cluster.segment source)) (h : source.toList.all (!isBrace ·)) :
    t.IsPlain ((Scan.of file source).reading file Format.split) := by
  refine ⟨rfl, fun hkind => ?_, fun hkind => ht.unbraced hkind h⟩
  obtain ⟨k, hk, hlead⟩ := ht.opening _ hkind
  have hfirst : k.first = '{' := by
    rw [← Text.Cluster.lead_eq_first (by rw [hlead]; decide), hlead]
    rfl
  have hmem : '{' ∈ source.toList := by
    rw [← Text.Cluster.text_segment source, Text.Cluster.text, String.toList_ofList]
    exact mem_flatMap.mpr ⟨k, hk, hfirst ▸ mem_cons_self⟩
  exact absurd (all_eq_true.mp h _ hmem) (by decide)

namespace Expr

theorem grows_isPlain : Grows Token.IsPlain fun x => x.isPlain = true where
  name _ _ := rfl
  number _ _ := rfl
  string ht hkind hvalue _ _ ht' := by
    -- a text without braces is its only segment, so the string stays one
    have hunbraced := Literal.unbraced_value (ht.string hkind) hvalue
    rw [ht'.split, Format.split, Format.splitWithin_of_unbraced _ hunbraced, Segment.plain]
    split <;> rfl
  dictionary ht hkind _ := absurd hkind ht.opening
  list := allPlain_of_forall
  new := id
  not := id
  and hx hy := Bool.and_eq_true_iff.mpr ⟨hx, hy⟩
  or hx hy := Bool.and_eq_true_iff.mpr ⟨hx, hy⟩
  arithmetic hx hy := Bool.and_eq_true_iff.mpr ⟨hx, hy⟩
  relation hx hy := Bool.and_eq_true_iff.mpr ⟨hx, hy⟩
  member hx _ _ := hx
  item hx hy := Bool.and_eq_true_iff.mpr ⟨hx, hy⟩
  call hx hitems := Bool.and_eq_true_iff.mpr ⟨hx, allPlain_of_forall hitems⟩

theorem isPlain_of_read {file source : String} {x : Expr} (h : source.toList.all (!isBrace ·))
    (hread : Expr.read file source = .ok x) : x.isPlain := by
  obtain ⟨htokens, hending⟩ := Scan.spelledIn file source
  exact of_readWith grows_isPlain ⟨fun t ht => (htokens t ht).isPlain h, hending.isPlain h⟩ hread

end Expr

namespace Format

theorem length_span_le {text source : List Char} (h : .span source ∈ pieces text) :
    (Text.trim source).length + 2 ≤ text.length := by
  have hraw := (sublist_flatten_of_mem (mem_map_of_mem (f := Piece.raw) h)).length_le
  have htrim := (Text.trim_sublist source).length_le
  rw [← flatMap_def, (cover_pieces text).raw, Piece.raw, length_append, length_cons,
    length_singleton] at hraw
  omega

theorem isPlain_of_mem_split {text : String} {x : Expr} (h : .expr x ∈ split text) : x.isPlain := by
  obtain ⟨parts, hparts, heq⟩ := isSplit_segments (cover_pieces text.toList).clean
  rw [split_eq, heq] at h
  obtain ⟨part, hpart, hsegment⟩ := mem_map.mp h
  cases part with
  | text t => cases hsegment
  | span source y =>
    cases hsegment
    obtain ⟨hunbraced, hread⟩ := hparts.read _ hpart
    exact Expr.isPlain_of_read (unbraced_trim hunbraced) hread

/-- Splitting and reading call each other on ever shorter texts. To split a text is to read the
sources in its braces, each shorter than the text by two characters; what is split on the way
through a source is shorter than one of its strings by two bytes. Inside the expressions of a text
nothing is split again, and no dictionary is there. -/
theorem split_recursion (file source text : String) :
    (split text = segments (Expr.read "") (pieces text.toList) ∧
      ∀ inner, .span inner ∈ pieces text.toList →
        (String.ofList (Text.trim inner)).length + 2 ≤ text.length) ∧
    (∀ read read' : String → Except Fault Expr,
      (∀ inner : String, inner.length + 2 ≤ text.length → read inner = read' inner) →
      segments read (pieces text.toList) = segments read' (pieces text.toList)) ∧
    (∀ inner, .split inner ∈ Expr.whole.log ((Scan.of file source).reading file Format.split)
        (Scan.of file source).tokens → (Scan.of file source).HasLonger inner) ∧
    (∀ inner, .split inner ∈ Template.parser.log ((Scan.of file source).reading file Format.split)
        (Scan.of file source).tokens → (Scan.of file source).HasLonger inner) ∧
    ∀ x, .expr x ∈ split text → x.isPlain = true := by
  have hspan : ∀ inner, .span inner ∈ pieces text.toList →
      (String.ofList (Text.trim inner)).length + 2 ≤ text.length := by
    intro inner h
    rw [← String.length_toList, ← String.length_toList, String.toList_ofList]
    exact length_span_le h
  exact ⟨⟨split_eq text, hspan⟩, fun _ _ h => segments_congr fun _ hinner => h _ (hspan _ hinner),
    (Expr.whole_paces file source).splits, (Template.parser_paces file source).splits,
    fun _ => isPlain_of_mem_split⟩

end Format

end Stencil
