import Stencil.Proofs.Expr.RoundTrip
import Stencil.Proofs.Template.FirstFault

/-!
# Splitting undoes joining

A format string is joined from parts: texts, whose braces are doubled, and sources of expressions in
braces. The list is in normal form if no text is empty or next to another, and every source is read.
Main statement: a list in normal form comes back when the format string is split, and whatever text
is split, the segments are those of such a list.

A source has no braces, so a string in it holds no expression. That is why the depth to which format
strings are split does not matter, and `Format.split` is an equation of its own.
-/
namespace Stencil

open Text (Cluster)
open Format (isBrace double splitWithin)
open List

/-! ## Texts without braces -/

namespace Literal

theorem isBrace_escaped (c : Char) : isBrace (escaped c) = isBrace c := by
  by_cases hbrace : isBrace c
  · rcases Format.isBrace_cases hbrace with rfl | rfl <;> rfl
  · unfold escaped
    split
    · next h => subst h; rfl
    split
    · next h => subst h; rfl
    split
    · next h => subst h; rfl
    · rfl

theorem unbraced_unescape {cs text : List Char} (h : cs.all (!isBrace ·))
    (htext : unescape cs = some text) : text.all (!isBrace ·) := by
  fun_induction unescape cs generalizing text with
  | case1 => cases htext; rfl
  | case2 => cases htext
  | case3 c cs ih =>
    obtain ⟨later, hlater, rfl⟩ := Option.map_eq_some_iff.mp htext
    simp only [all_cons, Bool.and_eq_true, isBrace_escaped] at h ⊢
    exact ⟨h.2.1, ih h.2.2 hlater⟩
  | case4 c cs _ _ ih =>
    obtain ⟨later, hlater, rfl⟩ := Option.map_eq_some_iff.mp htext
    rw [all_cons, Bool.and_eq_true] at h ⊢
    exact ⟨h.1, ih h.2 hlater⟩

/-- A literal that has a value is a text between two equal quotes. -/
theorem of_value {literal text : String} (h : value literal = .ok text) :
    ∃ quote body, literal.toList = quote :: (body ++ [quote]) ∧ unescape body = some text.toList := by
  unfold value at h
  split at h
  · cases h
  split at h
  · cases h
  next quote rest hliteral =>
  split at h
  · next hquotes =>
    obtain ⟨body, rfl⟩ := getLast?_eq_some_iff.mp
      (of_decide_eq_true (Bool.and_eq_true_iff.mp hquotes).2)
    rw [dropLast_concat] at h
    split at h
    · next cs hcs =>
      cases h
      exact ⟨quote, body, hliteral, by rw [hcs, String.toList_ofList]⟩
    · cases h
  · cases h

/-- Escapes bring no braces. -/
theorem unbraced_value {literal text : String} (h : literal.toList.all (!isBrace ·))
    (htext : value literal = .ok text) : text.toList.all (!isBrace ·) := by
  obtain ⟨quote, body, hliteral, hbody⟩ := of_value htext
  rw [hliteral, all_cons, all_append, Bool.and_eq_true, Bool.and_eq_true] at h
  exact unbraced_unescape h.2.1 hbody

end Literal

theorem Token.SpelledIn.unbraced {t : Token} {source : String}
    (ht : t.SpelledIn (Cluster.segment source)) (hkind : t.kind = .string)
    (h : source.toList.all (!isBrace ·)) : t.literal.toList.all (!isBrace ·) := by
  obtain ⟨ks, ⟨before, after, hsource⟩, hliteral, -⟩ := ht.literal (by rw [hkind]; rfl)
  rw [← Cluster.text_segment source, ← hsource, Cluster.text_append, Cluster.text_append,
    String.toList_append, String.toList_append, all_append, all_append,
    Bool.and_eq_true, Bool.and_eq_true] at h
  rw [hliteral]
  exact h.1.2

namespace Text

theorem trim_sublist (text : List Char) : trim text <+ text := by
  rw [trim]
  exact (reverse_sublist.mp (by simpa using dropWhile_sublist _)).trans (dropWhile_sublist _)

end Text

namespace Format

theorem unbraced_trim {source : List Char} (h : source.all (!isBrace ·)) :
    (String.ofList (Text.trim source)).toList.all (!isBrace ·) := by
  rw [String.toList_ofList]
  exact all_eq_true.mpr fun c hc => all_eq_true.mp h c ((Text.trim_sublist source).subset hc)

/-- A text without braces is its only segment. -/
theorem splitWithin_of_unbraced (depth : Nat) {text : String}
    (h : text.toList.all (!isBrace ·)) : splitWithin depth text = Segment.plain text := by
  cases depth with
  | zero => rfl
  | succ depth =>
    have hpieces := pieces_double text.toList []
    rw [double_of_unbraced h, append_nil, pieces] at hpieces
    rw [splitWithin, hpieces, segments_pieceOf, segments, Segment.plain]
    split
    · next hempty => rw [String.isEmpty_iff.mp hempty]; rfl
    · next hempty =>
      have hne : text.toList ≠ [] := by simpa using hempty
      rw [foldr_prepend hne rfl, String.ofList_toList]

end Format

/-! ## Expressions without braces -/

namespace Expr

variable {source : String}

/-- How texts are split matters for the strings of a source only. -/
theorem readWith_eq {split split' : String → List Segment} {file : String}
    (h : (Scan.of file source).SplitsAlike split split') :
    readWith split' file source = readWith split file source := by
  have hended := @Scan.isEnded file source split
  rw [readWith, readWith]
  rcases Relocation.same (fun h => whole_tracks h) (Scan.isSingle_relocation h hended) rfl
    (Scan.tokens_relocation h hended) (rfl : _ = Reading.mk file _ split)
    (rfl : _ = Reading.mk file _ split') with
    ⟨x, hleft, hright⟩ | ⟨fault, _, hleft, hright, rfl, -⟩
  · exact hright.trans hleft.symm
  · exact hright.trans hleft.symm

/-- The strings of a source without braces hold no expressions, so it does not matter how deep they
are split. -/
theorem readWith_of_unbraced (h : source.toList.all (!isBrace ·)) (depth : Nat)
    (file : String) : readWith (splitWithin depth) file source = read file source := by
  refine readWith_eq fun t ht hkind text htext => ?_
  obtain ⟨htokens, hending⟩ := Scan.spelledIn file source
  have hspelled : t.SpelledIn (Cluster.segment source) := by
    rcases mem_append.mp ht with ht | ht
    · exact htokens t ht
    · rw [mem_singleton.mp ht]
      exact hending
  have hunbraced := Literal.unbraced_value (hspelled.unbraced hkind h) htext
  rw [Format.split, Format.splitWithin_of_unbraced _ hunbraced,
    Format.splitWithin_of_unbraced _ hunbraced]

end Expr

namespace Format

/-! ## The pieces of a text -/

/-- No brace is inside a span. -/
def Piece.IsClean : Piece → Prop
  | .char _ | .doubled _ => True
  | .span source => source.all (!isBrace ·) = true

/-- Clean pieces that a text was cut into. -/
structure Cover (ps : List Piece) (text : List Char) : Prop where
  clean : ∀ piece ∈ ps, piece.IsClean
  raw : ps.flatMap Piece.raw = text

theorem Cover.nil : Cover [] [] := ⟨fun _ h => absurd h not_mem_nil, rfl⟩

variable {ps : List Piece} {rest : List Char}

theorem Cover.cons {piece : Piece} (hpiece : piece.IsClean) (h : Cover ps rest) :
    Cover (piece :: ps) (piece.raw ++ rest) :=
  ⟨forall_mem_cons.mpr ⟨hpiece, h.clean⟩, by rw [flatMap_cons, h.raw]⟩

theorem Cover.chars (cs : List Char) (h : Cover ps rest) :
    Cover (cs.map Piece.char ++ ps) (cs ++ rest) := by
  induction cs with
  | nil => exact h
  | cons c cs ih => exact .cons trivial ih

theorem cover_pieces (text : List Char) : Cover (pieces text) text := by
  -- What was read after an opening brace stays free of braces until the span ends.
  refine pieces.induct (fun text => Cover (pieces text) text)
    (fun read text => read.all (!isBrace ·) = true →
      Cover (spanFrom read text) ('{' :: read.reverse ++ text))
    ?openings ?closings ?opening ?char ?nil ?close ?reopenings ?reopening ?inside ?unclosed text
  case openings => exact fun cs ih => by rw [pieces]; exact .cons trivial ih
  case closings => exact fun cs ih => by rw [pieces]; exact .cons trivial ih
  case opening => exact fun cs hcs ih => by rw [pieces.eq_3 cs hcs]; exact ih rfl
  case char =>
    intro c cs hopenings hclosings hopening ih
    rw [pieces.eq_4 c cs hopenings hclosings hopening]
    exact .cons trivial ih
  case nil => rw [pieces]; exact .nil
  case close =>
    intro read cs ih hread
    rw [spanFrom, append_cons]
    exact .cons (by rw [Piece.IsClean, all_reverse, hread]) ih
  case reopenings =>
    intro read cs ih hread
    rw [spanFrom]
    exact .chars _ (.cons trivial ih)
  case reopening =>
    intro read cs hcs ih hread
    rw [spanFrom.eq_3 read cs hcs]
    exact .chars _ (ih rfl)
  case inside =>
    intro read c cs hclosing hopenings hopening ih hread
    rw [spanFrom.eq_4 read c cs hclosing hopenings hopening, append_cons]
    rw [reverse_cons] at ih
    refine ih ?_
    rw [all_cons, hread, isBrace, decide_eq_false hopening, decide_eq_false hclosing]
    rfl
  case unclosed =>
    intro read hread
    have hchars := Cover.chars ('{' :: read.reverse) .nil
    rw [append_nil] at hchars
    rw [spanFrom]
    exact hchars

theorem segments_congr {read read' : String → Except Fault Expr}
    (h : ∀ source, .span source ∈ ps → read (String.ofList (Text.trim source)) =
      read' (String.ofList (Text.trim source))) : segments read ps = segments read' ps := by
  induction ps with
  | nil => rfl
  | cons piece ps ih =>
    have hlater := ih fun source hsource => h source (mem_cons_of_mem _ hsource)
    cases piece with
    | char c => rw [segments, segments, hlater]
    | doubled brace => rw [segments, segments, hlater]
    | span source => rw [segments, segments, h source mem_cons_self, hlater]

/-- The segments of a text, whatever the depth. -/
theorem split_eq (text : String) : split text = segments (Expr.read "") (pieces text.toList) := by
  have hread : ∀ depth, segments (Expr.readWith (splitWithin depth) "") (pieces text.toList) =
      segments (Expr.read "") (pieces text.toList) := by
    intro depth
    refine segments_congr fun source hsource => ?_
    exact Expr.readWith_of_unbraced (unbraced_trim ((cover_pieces _).clean _ hsource)) depth ""
  rw [split]
  cases hlength : text.length with
  | zero =>
    have hnil : text.toList = [] := length_eq_zero_iff.mp (by simpa using hlength)
    rw [String.toList_eq_nil_iff.mp hnil]
    rfl
  | succ depth => rw [splitWithin, hread]

/-! ## Parts -/

/-- What a format string is joined from: a text, or the source of an expression. -/
inductive Part where
  | text (text : String)
  | span (source : String) (value : Expr)

namespace Part

/-- What is left of a part when the format string is split. -/
def segment : Part → Segment
  | .text t => .text t
  | .span _ x => .expr x

def written : Part → List Char
  | .text t => double t.toList
  | .span source _ => '{' :: source.toList ++ ['}']

/-- The source of an expression has no braces, and is read without the blanks around it. -/
def IsRead : Part → Prop
  | .text _ => True
  | .span source x => source.toList.all (!isBrace ·) = true ∧
      Expr.read "" (String.ofList (Text.trim source.toList)) = .ok x

end Part

def joined (parts : List Part) : String := String.ofList (parts.flatMap Part.written)

/-- No text is empty, and none follows another. -/
def isNormal : List Segment → Bool
  | [] => true
  | .text t :: rest => !t.isEmpty && rest.head?.all Segment.isExpr && isNormal rest
  | .expr _ :: rest => isNormal rest

/-- Parts that a format string is joined from in one way. -/
structure NormalForm (parts : List Part) : Prop where
  normal : isNormal (parts.map Part.segment) = true
  read : ∀ part ∈ parts, part.IsRead

namespace NormalForm

variable {part : Part} {parts : List Part}

theorem tail (h : NormalForm (part :: parts)) : NormalForm parts := by
  constructor
  · have hnormal := h.normal
    cases part with
    | text t => exact (Bool.and_eq_true_iff.mp hnormal).2
    | span source x => exact hnormal
  · exact fun p hp => h.read p (mem_cons_of_mem part hp)

theorem nil : NormalForm [] := ⟨rfl, fun _ h => absurd h not_mem_nil⟩

theorem span {source : String} {x : Expr} (hread : (Part.span source x).IsRead)
    (h : NormalForm parts) : NormalForm (.span source x :: parts) :=
  ⟨h.normal, forall_mem_cons.mpr ⟨hread, h.read⟩⟩

theorem text {t : String} (ht : t.isEmpty = false)
    (hfront : (parts.map Part.segment).head?.all Segment.isExpr) (h : NormalForm parts) :
    NormalForm (.text t :: parts) := by
  constructor
  · change (!t.isEmpty && (parts.map Part.segment).head?.all Segment.isExpr &&
      isNormal (parts.map Part.segment)) = true
    rw [ht, hfront, h.normal]
    rfl
  · exact forall_mem_cons.mpr ⟨trivial, h.read⟩

end NormalForm

/-! ## Joining, then splitting -/

theorem segments_joined {parts : List Part} (h : NormalForm parts) :
    segments (Expr.read "") (pieces (parts.flatMap Part.written)) = parts.map Part.segment := by
  induction parts with
  | nil => rfl
  | cons part parts ih =>
    have hlater := ih h.tail
    rw [flatMap_cons, map_cons]
    cases part with
    | text t =>
      obtain ⟨hfirst, -⟩ := Bool.and_eq_true_iff.mp h.normal
      obtain ⟨hne, hfront⟩ := Bool.and_eq_true_iff.mp hfirst
      have hchars : t.toList ≠ [] := by simpa using hne
      rw [Part.written, pieces_double, segments_pieceOf, hlater, foldr_prepend hchars hfront,
        String.ofList_toList]
      rfl
    | span source x =>
      obtain ⟨hbraces, hread⟩ := h.read _ mem_cons_self
      rw [Part.written, append_assoc, singleton_append, pieces_span hbraces, segments,
        hread, hlater]
      rfl

/-! ## Splitting any text -/

/-- Segments that splitting can give. -/
def IsSplit (found : List Segment) : Prop :=
  ∃ parts, NormalForm parts ∧ found = parts.map Part.segment

theorem isSplit_plain (text : String) : IsSplit (Segment.plain text) := by
  rw [Segment.plain]
  split
  · exact ⟨[], .nil, rfl⟩
  · next hempty => exact ⟨[.text text], .text (by simpa using hempty) rfl .nil, rfl⟩

theorem isSplit_prepend {found : List Segment} (h : IsSplit found) (c : Char) :
    IsSplit (Segment.prepend c.toString found) := by
  obtain ⟨parts, hparts, rfl⟩ := h
  cases parts with
  | nil => exact ⟨[.text c.toString], .text (by simp) rfl .nil, rfl⟩
  | cons part parts =>
    cases part with
    | text t =>
      obtain ⟨hfirst, -⟩ := Bool.and_eq_true_iff.mp hparts.normal
      exact ⟨.text (c.toString ++ t) :: parts,
        .text (by simp) (Bool.and_eq_true_iff.mp hfirst).2 hparts.tail, rfl⟩
    | span source x =>
      exact ⟨.text c.toString :: .span source x :: parts,
        .text (by simp) rfl hparts, rfl⟩

theorem isSplit_segments (h : ∀ piece ∈ ps, piece.IsClean) : IsSplit (segments (Expr.read "") ps) := by
  induction ps with
  | nil => exact ⟨[], .nil, rfl⟩
  | cons piece ps ih =>
    obtain ⟨hpiece, hlater⟩ := forall_mem_cons.mp h
    cases piece with
    | char c => exact isSplit_prepend (ih hlater) c
    | doubled brace => exact isSplit_prepend (ih hlater) brace
    | span source =>
      rw [segments]
      split
      · next x hread =>
        obtain ⟨parts, hparts, heq⟩ := ih hlater
        have hspan : (Part.span (String.ofList source) x).IsRead := by
          rw [Part.IsRead, String.toList_ofList]
          exact ⟨hpiece, hread⟩
        exact ⟨_, hparts.span hspan, by rw [heq]; rfl⟩
      · exact isSplit_plain _

/-- Splitting undoes joining, and gives parts in normal form for every text. -/
theorem split_joined :
    (∀ parts, NormalForm parts → split (joined parts) = parts.map Part.segment) ∧
      ∀ text, ∃ parts, NormalForm parts ∧ split text = parts.map Part.segment := by
  constructor
  · intro parts h
    rw [split_eq, joined, String.toList_ofList, segments_joined h]
  · intro text
    rw [split_eq]
    exact isSplit_segments (cover_pieces text.toList).clean

/-- Braces on both sides of two expressions that touch. -/
theorem split_joined_touching :
    ∃ x y, Expr.read "" "b.c" = .ok x ∧ Expr.read "" "f(\"u\")" = .ok y ∧
      NormalForm [.text "a\x7b", .span " b.c " x, .span "f(\"u\")" y, .text "\x7dz"] ∧
      split "a\x7b\x7b\x7b b.c \x7d\x7bf(\"u\")\x7d\x7d\x7dz" =
        [.text "a\x7b", .expr x, .expr y, .text "\x7dz"] := by
  have hfirst : ((Expr.read "" "b.c").toOption.any fun _ => true) = true := by decide +kernel
  have hsecond : ((Expr.read "" "f(\"u\")").toOption.any fun _ => true) = true := by decide +kernel
  obtain ⟨x, hx, -⟩ := exists_of_toOption hfirst
  obtain ⟨y, hy, -⟩ := exists_of_toOption hsecond
  have hfirstTrim : String.ofList (Text.trim " b.c ".toList) = "b.c" := by decide
  have hsecondTrim : String.ofList (Text.trim "f(\"u\")".toList) = "f(\"u\")" := by decide
  have hparts : NormalForm
      [.text "a\x7b", .span " b.c " x, .span "f(\"u\")" y, .text "\x7dz"] := by
    refine .text (by decide) rfl (.span ⟨by decide, ?_⟩ (.span ⟨by decide, ?_⟩
      (.text (by decide) rfl .nil)))
    · rw [hfirstTrim, hx]
    · rw [hsecondTrim, hy]
  have hjoined : joined [.text "a\x7b", .span " b.c " x, .span "f(\"u\")" y, .text "\x7dz"] =
      "a\x7b\x7b\x7b b.c \x7d\x7bf(\"u\")\x7d\x7d\x7dz" := by
    rfl
  refine ⟨x, y, hx, hy, hparts, ?_⟩
  rw [← hjoined, split_joined.1 _ hparts]
  rfl

end Format
end Stencil
