import Stencil.Proofs.Token.Indentation

/-!
# Tokens as parts of their source

The tokens of a scan lie on the clusters of its source in order, each over the text that is its
literal. What lies between them is blank, a line break or a comment.
-/
namespace Stencil

open Text (Cluster)
open Text.Cluster (bytes text bytes_append bytes_cons)
open List

/-! ## Slices -/

namespace Text.Cluster

theorem text_append (ks ls : List Cluster) : text (ks ++ ls) = text ks ++ text ls := by
  rw [text, flatMap_append, String.ofList_append]
  rfl

theorem chars_segmentFrom (before : BreakContext) (cs : List Char) :
    (segmentFrom before cs).flatMap chars = cs := by
  induction cs generalizing before with
  | nil => rfl
  | cons c cs ih =>
    have hlater := ih (before.next (.of c))
    unfold segmentFrom
    dsimp only
    split
    · next d ds k ks hks =>
      rw [hks, flatMap_cons] at hlater
      split
      · rw [flatMap_cons, chars, cons_append, hlater]
      · rw [flatMap_cons, flatMap_cons, hlater]
        rfl
    · rw [flatMap_cons, hlater]
      rfl

/-- The clusters of a text are all of it. -/
theorem text_segment (source : String) : text (segment source) = source := by
  rw [text, segment, chars_segmentFrom, String.ofList_toList]

end Text.Cluster

namespace Token

/-- The literal is the text of the source at the token's offset. -/
def IsSlice (source : String) (t : Token) : Prop :=
  t.stop ≤ source.utf8ByteSize ∧ source.toUTF8.extract t.offset t.stop = t.literal.toUTF8

/-- An offset within the literal. -/
def Covers (t : Token) (offset : Nat) : Prop := t.offset ≤ offset ∧ offset < t.stop

variable {t : Token} {source : String}

theorem isSlice_of_append (before after : String) (h : source = before ++ (t.literal ++ after))
    (hoffset : t.offset = before.utf8ByteSize) : t.IsSlice source := by
  subst h
  constructor
  · simp only [stop, hoffset, String.utf8ByteSize_append]
    omega
  · have hfront : (t.literal.toUTF8 ++ after.toUTF8).extract 0 t.literal.toUTF8.size =
        t.literal.toUTF8 := ByteArray.extract_append_eq_left rfl
    have hshift := @ByteArray.extract_append_size_add before.toUTF8
      (t.literal.toUTF8 ++ after.toUTF8) 0 t.literal.toUTF8.size
    rw [hfront, Nat.add_zero] at hshift
    simpa only [stop, hoffset, String.toUTF8, String.toByteArray_append, String.size_toByteArray]
      using hshift

/-- An empty literal is found everywhere. -/
theorem isSlice_of_empty (h : t.literal = "") (hoffset : t.offset ≤ source.utf8ByteSize) :
    t.IsSlice source := by
  have hstop : t.stop = t.offset := by
    rw [stop, h]
    rfl
  refine ⟨by rwa [hstop], ?_⟩
  rw [hstop, h]
  exact ByteArray.extract_eq_empty_iff.mpr (Nat.min_le_left _ _)

end Token

namespace Lexer.Cut

variable {kind : TokenKind} {taken : List Cluster} {literal : String}

/-- A literal is the front of the text it is cut from. -/
theorem text_eq (h : Cut kind taken literal) : ∃ tail, text taken = literal ++ tail := by
  cases h with
  | whole => exact ⟨"", (String.append_empty).symm⟩
  | @opening k b hk | @closing k b hk =>
    refine ⟨String.ofList k.joined, ?_⟩
    rw [text, flatMap_singleton, Cluster.chars, String.ofList_cons, hk]
    rfl

theorem utf8ByteSize_le (h : Cut kind taken literal) : literal.utf8ByteSize ≤ bytes taken := by
  obtain ⟨tail, htail⟩ := h.text_eq
  have hsize := Cluster.utf8ByteSize_text taken
  rw [htail, String.utf8ByteSize_append] at hsize
  omega

/-- Every cluster of a token starts within the literal. -/
theorem bytes_lt {before after : List Cluster} {k : Cluster}
    (h : Cut kind (before ++ k :: after) literal) : bytes before < literal.utf8ByteSize := by
  generalize htaken : before ++ k :: after = taken at h
  cases h with
  | whole =>
    have := k.size_pos
    rw [Cluster.utf8ByteSize_text, ← htaken, bytes_append, bytes_cons]
    omega
  | opening b | closing b =>
    rw [append_eq_singleton_iff] at htaken
    rcases htaken with ⟨rfl, -⟩ | ⟨-, hnil⟩
    · cases b <;> decide
    · cases hnil

end Lexer.Cut

namespace Lexer

variable {l m : Lexer} {t : Token} {source : String} {skipped taken : List Cluster}

/-- The scanner stands at a place of the source, and a fault was found in the source. -/
structure Sited (source : String) (l : Lexer) : Prop where
  place : ∃ before, Cluster.segment source = before ++ l.cursor.rest ∧ l.cursor.offset = bytes before
  fault : ∀ failure, l.fault = some failure → failure.1.IsSlice source

theorem sited_start (file source : String) : (start file source).Sited source :=
  ⟨⟨[], rfl, rfl⟩, by simp [start]⟩

/-- The text in front of a place, and the text from there on. -/
theorem Passes.source_eq (hpass : l.Passes skipped taken m) (hl : l.Sited source) :
    ∃ before, source = text before ++ (text taken ++ text m.cursor.rest) ∧
      bytes before = l.cursor.offset + bytes skipped := by
  obtain ⟨before, hsource, hoffset⟩ := hl.place
  refine ⟨before ++ skipped, ?_, by rw [bytes_append, hoffset]⟩
  rw [← Cluster.text_append, ← Cluster.text_append, append_assoc, ← hpass.rest, ← hsource,
    Cluster.text_segment]

theorem Passes.sited (hpass : l.Passes skipped taken m) (hl : l.Sited source) : m.Sited source := by
  refine ⟨?_, fun failure h => hl.fault failure (hpass.fault ▸ h)⟩
  obtain ⟨before, hsource, hoffset⟩ := hl.place
  refine ⟨before ++ (skipped ++ taken), ?_, ?_⟩
  · rw [hsource, hpass.rest, append_assoc, append_assoc]
  · rw [hpass.offset, hoffset, bytes_append, bytes_append, Nat.add_assoc]

theorem Sited.offset_add_le (hl : l.Sited source) :
    l.cursor.offset + bytes l.cursor.rest = source.utf8ByteSize := by
  obtain ⟨before, hsource, hoffset⟩ := hl.place
  rw [hoffset, ← bytes_append, ← hsource, ← Cluster.utf8ByteSize_text, Cluster.text_segment]

theorem Step.isSlice (h : l.Step t m) (hl : l.Sited source) : t.IsSlice source := by
  obtain ⟨skipped, taken, hpass⟩ := h.passes
  have hsize := (hpass.sited hl).offset_add_le
  cases h with
  | content hpass hcut hoffset =>
    obtain ⟨before, hsource, hbefore⟩ := hpass.source_eq hl
    obtain ⟨tail, htail⟩ := hcut.text_eq
    rw [htail, String.append_assoc] at hsource
    refine Token.isSlice_of_append _ _ hsource ?_
    rw [Cluster.utf8ByteSize_text, hbefore, hoffset]
  | indent | dedent | lastLine | lastLevel | eof =>
    refine Token.isSlice_of_empty rfl ?_
    simp only [token]
    omega
  | pending hpass hmark hoffset =>
    refine Token.isSlice_of_empty hmark.2 ?_
    have hmargin := Lexeme.margin_le m.cursor.rest
    have hsplit := congrArg bytes
      (takeWhile_append_dropWhile (p := (·.lead = ' ')) (l := m.cursor.rest))
    rw [bytes_append] at hsplit
    omega

theorem Stuck.isSlice (h : l.Stuck t m) (hl : l.Sited source) : t.IsSlice source := by
  cases h with
  | intro hpass hkind hliteral hoffset =>
    obtain ⟨before, hsource, hbefore⟩ := hpass.source_eq hl
    rw [← hliteral] at hsource
    refine Token.isSlice_of_append _ _ hsource ?_
    rw [Cluster.utf8ByteSize_text, hbefore, hoffset]

/-- The next token is a part of the source, even if it is the one of a fault. -/
theorem Sited.next (hl : l.Sited source) : l.next.1.IsSlice source ∧ l.next.2.Sited source := by
  rcases next_cases l with ⟨failure, hfault, h⟩ | ⟨t, m, hfault, hscan, h⟩ | ⟨t, fault, m, hfault, hscan, h⟩
  · rw [h]
    exact ⟨hl.fault failure hfault, hl⟩
  · obtain ⟨skipped, taken, hpass⟩ := (step_of_scan hscan).passes
    have hm := hpass.sited hl
    rw [h]
    exact ⟨(step_of_scan hscan).isSlice hl, hm.place, hm.fault⟩
  · have hstuck := stuck_of_scan hscan
    have hslice := hstuck.isSlice hl
    rw [h]
    cases hstuck with
    | intro hpass =>
      refine ⟨hslice, (hpass.sited hl).place, ?_⟩
      rintro failure ⟨⟩
      exact hslice

theorem Sited.after (hl : l.Sited source) (n : Nat) : (l.after n).Sited source := by
  induction n generalizing l with
  | zero => exact hl
  | succ n ih => exact ih hl.next.2

end Lexer

/-! ## Tilings -/

/-- Tokens lie in order on clusters that start at an offset, none of them below a floor. A token of
layout lies on nothing; it may stand ahead of its place, at the margin of the line to come. -/
inductive Tiles : Nat → Nat → List Cluster → List Token → Prop where
  | nil (floor offset : Nat) : Tiles floor offset [] []
  | content {floor offset : Nat} {skipped taken rest : List Cluster} {t : Token} {ts : List Token}
      (htrivia : Lexeme.isTrivia false skipped = true) (hcut : Lexer.Cut t.kind taken t.literal)
      (hoffset : t.offset = offset + bytes skipped) (hfloor : floor ≤ t.offset)
      (hlater : Tiles t.stop (t.offset + bytes taken) rest ts) :
      Tiles floor offset (skipped ++ (taken ++ rest)) (t :: ts)
  | layout {floor offset : Nat} {skipped rest : List Cluster} {t : Token} {ts : List Token}
      (htrivia : Lexeme.isTrivia false skipped = true) (hliteral : t.literal = "")
      (hoffset : offset + bytes skipped ≤ t.offset) (hfloor : floor ≤ t.offset)
      (hlater : Tiles t.stop (offset + bytes skipped) rest ts) :
      Tiles floor offset (skipped ++ rest) (t :: ts)

namespace Tiles

variable {floor offset : Nat} {ks : List Cluster} {t : Token} {ts : List Token}

theorem floor_le (h : Tiles floor offset ks ts) : ∀ t ∈ ts, floor ≤ t.offset := by
  induction h with
  | nil => simp
  | content _ _ _ hfloor _ ih | layout _ _ _ hfloor _ ih =>
    refine forall_mem_cons.mpr ⟨hfloor, fun u hu => ?_⟩
    have := ih u hu
    rw [Token.stop] at this
    omega

/-- The literals do not overlap. -/
theorem pairwise (h : Tiles floor offset ks ts) : ts.Pairwise (·.stop ≤ ·.offset) := by
  induction h with
  | nil => exact .nil
  | content _ _ _ _ hlater ih | layout _ _ _ _ hlater ih => exact .cons hlater.floor_le ih

end Tiles

/-! ## What no token covers -/

/-- An offset within a literal of these tokens. -/
def IsCovered (ts : List Token) (offset : Nat) : Prop := ∃ t ∈ ts, t.Covers offset

/-- A cluster goes on with a comment from a `#` outside of all tokens, on the same line. -/
def InComment (covered : Nat → Prop) (before : List Cluster) (k : Cluster) : Prop :=
  ∃ outside hash line, before ++ [k] = outside ++ hash :: line ∧ hash.first = '#' ∧
    ¬ covered (bytes outside) ∧ ∀ c ∈ hash :: line, c.lead ≠ '\n'

/-- The characters that may stand between tokens. -/
def isBlankChar (c : Char) : Bool := [' ', '\t', '\r', '\n'].contains c

variable {k : Cluster} {before after : List Cluster}

theorem isBlankChar_of_lead (h : k.lead = '\n') : isBlankChar k.first := by
  unfold Cluster.lead at h
  split at h
  · next hchars =>
    rw [(cons.inj hchars).1]
    rfl
  · rw [h]
    rfl

/-- A cluster of trivia is blank, or it goes on with a comment that starts before or within. -/
theorem Lexeme.isTrivia_cases {comment : Bool} (h : isTrivia comment (before ++ k :: after)) :
    isBlankChar k.first ∨ (comment ∧ ∀ c ∈ before ++ [k], c.lead ≠ '\n') ∨
      ∃ outside hash line, before ++ [k] = outside ++ hash :: line ∧ hash.first = '#' ∧
        ∀ c ∈ hash :: line, c.lead ≠ '\n' := by
  induction before generalizing comment with
  | nil =>
    rw [nil_append, isTrivia] at h
    by_cases hline : k.lead = '\n'
    · exact .inl (isBlankChar_of_lead hline)
    rw [if_neg hline] at h
    by_cases hcomment : (comment || k.first = '#')
    · refine .inr ?_
      rcases Bool.or_eq_true_iff.mp hcomment with hopen | hhash
      · exact .inl ⟨hopen, by simpa using hline⟩
      · exact .inr ⟨[], k, [], rfl, of_decide_eq_true hhash, by simpa using hline⟩
    · rw [if_neg hcomment] at h
      have hblank := (Bool.and_eq_true_iff.mp h).1
      simp only [Bool.or_eq_true, decide_eq_true_eq] at hblank
      rcases hblank with (hk | hk) | hk <;> exact .inl (by rw [hk]; rfl)
  | cons j before ih =>
    -- What is found in the rest is found here, one cluster further back.
    have hback : (∃ outside hash line, before ++ [k] = outside ++ hash :: line ∧ hash.first = '#' ∧
        ∀ c ∈ hash :: line, c.lead ≠ '\n') →
        ∃ outside hash line, j :: before ++ [k] = outside ++ hash :: line ∧ hash.first = '#' ∧
          ∀ c ∈ hash :: line, c.lead ≠ '\n' := by
      rintro ⟨outside, hash, line, heq, hrest⟩
      exact ⟨j :: outside, hash, line, by rw [cons_append, heq]; rfl, hrest⟩
    rw [cons_append, isTrivia] at h
    by_cases hline : j.lead = '\n'
    · rw [if_pos hline] at h
      rcases ih h with hblank | ⟨hopen, -⟩ | hfound
      · exact .inl hblank
      · cases hopen
      · exact .inr (.inr (hback hfound))
    rw [if_neg hline] at h
    by_cases hcomment : (comment || j.first = '#')
    · rw [if_pos hcomment] at h
      rcases ih h with hblank | ⟨-, hsame⟩ | hfound
      · exact .inl hblank
      · have hall : ∀ c ∈ j :: (before ++ [k]), c.lead ≠ '\n' :=
          forall_mem_cons.mpr ⟨hline, hsame⟩
        rcases Bool.or_eq_true_iff.mp hcomment with hopen | hhash
        · exact .inr (.inl ⟨hopen, hall⟩)
        · exact .inr (.inr ⟨[], j, before ++ [k], rfl, of_decide_eq_true hhash, hall⟩)
      · exact .inr (.inr (hback hfound))
    · rw [if_neg hcomment] at h
      rcases ih (Bool.and_eq_true_iff.mp h).2 with hblank | ⟨hopen, -⟩ | hfound
      · exact .inl hblank
      · cases hopen
      · exact .inr (.inr (hback hfound))

/-- Where a cluster lies: on a token or between tokens. -/
def Placed (covered : Nat → Prop) (before : List Cluster) (k : Cluster) : Prop :=
  covered (bytes before) ∨ isBlankChar k.first = true ∨ InComment covered before k

/-- A place in two parts lies in the first or in the second. -/
theorem append_eq_middle {xs ys : List Cluster} (h : xs ++ ys = before ++ k :: after) :
    (∃ tail, xs = before ++ k :: tail) ∨ ∃ later, before = xs ++ later ∧ ys = later ++ k :: after := by
  rcases append_eq_append_iff.mp h with ⟨later, hbefore, hys⟩ | ⟨tail, hxs, htail⟩
  · exact .inr ⟨later, hbefore, hys⟩
  · cases tail with
    | nil => exact .inr ⟨[], by simpa using hxs.symm, by simpa using htail.symm⟩
    | cons j tail =>
      cases htail
      exact .inl ⟨tail, hxs⟩

namespace Tiles

variable {floor offset : Nat} {t : Token} {ts : List Token} {before after : List Cluster}
  {k : Cluster}

/-- What is passed over lies in front of the tokens to come. -/
theorem placed_skipped (h : Lexeme.isTrivia false (before ++ k :: after))
    (hbeyond : ∀ t ∈ ts, offset + bytes (before ++ k :: after) ≤ t.offset) :
    Placed (IsCovered ts <| offset + ·) before k := by
  refine .inr ?_
  rcases Lexeme.isTrivia_cases h with hblank | ⟨hopen, -⟩ | ⟨outside, hash, line, heq, hhash, hline⟩
  · exact .inl hblank
  · cases hopen
  · refine .inr ⟨outside, hash, line, heq, hhash, ?_, hline⟩
    rintro ⟨t, ht, hlow, -⟩
    have hfront : bytes outside < bytes (before ++ k :: after) := by
      have := hash.size_pos
      rw [← singleton_append, ← append_assoc, heq, bytes_append, bytes_append, bytes_cons]
      omega
    have := hbeyond t ht
    omega

/-- A token that ends before a place has no part in it. -/
theorem placed_later {passed : List Cluster}
    (h : Placed (IsCovered ts <| offset + bytes passed + ·) before k)
    (hstop : t.stop ≤ offset + bytes passed ∨ t.literal = "") :
    Placed (IsCovered (t :: ts) <| offset + ·) (passed ++ before) k := by
  have hshift : ∀ ks, offset + bytes (passed ++ ks) = offset + bytes passed + bytes ks := by
    intro ks
    rw [bytes_append]
    omega
  rcases h with ⟨u, hu, hcovers⟩ | hblank | ⟨outside, hash, line, heq, hhash, hfree, hline⟩
  · exact .inl ⟨u, mem_cons_of_mem t hu, by rwa [hshift]⟩
  · exact .inr (.inl hblank)
  · refine .inr (.inr ⟨passed ++ outside, hash, line, ?_, hhash, ?_, hline⟩)
    · rw [append_assoc, heq, append_assoc]
    · dsimp only
      rw [hshift]
      rintro ⟨u, hu, hcovers⟩
      rcases mem_cons.mp hu with rfl | hlater
      · obtain ⟨hlow, hhigh⟩ := hcovers
        rcases hstop with hstop | hempty
        · omega
        · rw [Token.stop, hempty] at hhigh
          exact absurd hlow (Nat.not_le_of_lt hhigh)
      · exact hfree ⟨u, hlater, hcovers⟩

theorem placed {ks : List Cluster} (h : Tiles floor offset ks ts) (hks : ks = before ++ k :: after)
    : Placed (IsCovered ts <| offset + ·) before k := by
  induction h generalizing before with
  | nil => simp at hks
  | @content floor offset skipped taken rest t ts htrivia hcut hoffset _ hlater ih =>
    have hstop : t.stop ≤ offset + bytes (skipped ++ taken) := by
      have := hcut.utf8ByteSize_le
      rw [Token.stop, hoffset, bytes_append]
      omega
    rcases append_eq_middle hks with ⟨tail, rfl⟩ | ⟨before, rfl, hrest⟩
    · refine placed_skipped htrivia
        (forall_mem_cons.mpr ⟨Nat.le_of_eq hoffset.symm, fun u hu => ?_⟩)
      have := hlater.floor_le u hu
      rw [Token.stop] at this
      omega
    rcases append_eq_middle hrest with ⟨tail, rfl⟩ | ⟨before, rfl, hlast⟩
    · have hwithin := hcut.bytes_lt
      refine .inl ⟨t, mem_cons_self, ?_, ?_⟩
      · rw [bytes_append]
        omega
      · rw [bytes_append, Token.stop]
        omega
    · rw [← append_assoc]
      refine placed_later ?_ (.inl hstop)
      rw [bytes_append, ← Nat.add_assoc, ← hoffset]
      exact ih hlast
  | @layout floor offset skipped rest t ts htrivia hliteral hoffset _ hlater ih =>
    rcases append_eq_middle hks with ⟨tail, rfl⟩ | ⟨before, rfl, hrest⟩
    · refine placed_skipped htrivia (forall_mem_cons.mpr ⟨hoffset, fun u hu => ?_⟩)
      have := hlater.floor_le u hu
      rw [Token.stop] at this
      omega
    · exact placed_later (ih hrest) (.inr hliteral)

end Tiles

/-! ## The tokens of a scan -/

namespace Lexer

variable {l m : Lexer} {t : Token} {ts : List Token} {floor : Nat}

/-- No token to come starts below the floor. On a line that still closes levels, tokens already
stand at its margin. -/
def Floor (l : Lexer) (floor : Nat) : Prop :=
  floor ≤ l.cursor.offset ∨
    (floor ≤ l.cursor.offset + (Lexeme.margin l.cursor.rest).1 ∧
      (l.cursor.column = 1 ∧ l.brackets = []) ∧ Lexeme.blankLines l.cursor.rest = 0)

theorem Step.offset_le (h : l.Step t m) : l.cursor.offset ≤ t.offset := by
  cases h with
  | content hpass hcut hoffset => omega
  | indent _ hpass | dedent _ hpass | lastLine hpass | lastLevel hpass | eof hpass =>
    have := hpass.offset
    simp only [token]
    omega
  | pending hpass hmark hoffset =>
    have := hpass.offset
    omega

theorem Floor.begins {result : Scanned} (h : l.Floor floor) (hbranches : l.Branches result) :
    Begins (floor ≤ ·) result := by
  have hskip : ∀ {c : Cursor} {n : Nat}, floor ≤ c.offset → floor ≤ (c.skip n).offset := by
    intro c n hle
    rw [Cursor.offset_skip]
    exact Nat.le_trans hle (Nat.le_add_right _ _)
  rcases h with hbelow | ⟨hmargin, hline, hblank⟩
  · cases hbranches with
    | gives hcomes hgives =>
      obtain ⟨n, rfl⟩ := hcomes.exists_skip
      exact hgives.begins (hskip hbelow)
    | lays _ hlays =>
      exact hlays.begins (hskip (hskip hbelow))
        (Nat.le_trans (hskip hbelow) (Nat.le_add_right _ _))
  · -- The first token of a line stands at its margin or after it.
    have hpast := pastBlank_of_zero hblank
    have hinside := Nat.le_trans hmargin (margin_le_pastMargin l)
    cases hbranches with
    | gives hcomes hgives =>
      refine hgives.begins ?_
      cases hcomes with
      | inside hinside => exact absurd hline hinside
      | ending _ _ hrest =>
        rw [hpast] at hrest ⊢
        rwa [hrest] at hmargin
      | line =>
        rw [hpast]
        exact hskip hinside
    | lays _ hlays =>
      rw [hpast] at hlays
      exact hlays.begins hinside hmargin

theorem Floor.le_offset (h : l.Floor floor) (hscan : l.scan = .ok (t, m)) : floor ≤ t.offset := by
  have hbegins := h.begins l.scan_branches
  rwa [hscan] at hbegins

/-- A step lays one token in front of those to come. -/
theorem tiles_step (hscan : l.scan = .ok (t, m)) (hfloor : l.Floor floor)
    (hlater : ∀ floor, m.Floor floor → Tiles floor m.cursor.offset m.cursor.rest ts) :
    Tiles floor l.cursor.offset l.cursor.rest (t :: ts) := by
  have hbelow := hfloor.le_offset hscan
  -- All tokens of layout but one kind stand where the scan has stopped.
  have hhere : ∀ skipped kind, l.Passes skipped [] m → floor ≤ m.cursor.offset →
      Tiles floor l.cursor.offset l.cursor.rest (m.token kind "" :: ts) := by
    intro skipped kind hpass hle
    have hoffset := hpass.offset
    rw [Cluster.bytes_nil, Nat.add_zero] at hoffset
    rw [hpass.rest, nil_append]
    refine .layout hpass.trivia rfl (Nat.le_of_eq hoffset.symm) hle ?_
    rw [← hoffset]
    exact hlater _ (.inl (Nat.le_refl _))
  cases step_of_scan hscan with
  | @content skipped taken _ _ hpass hcut hoffset =>
    have hstop := hcut.utf8ByteSize_le
    rw [hpass.rest]
    refine .content hpass.trivia hcut hoffset hbelow ?_
    rw [hoffset, ← hpass.offset]
    refine hlater _ (.inl ?_)
    rw [Token.stop, hpass.offset, hoffset]
    omega
  | indent _ hpass | dedent _ hpass | lastLine hpass | lastLevel hpass | eof hpass =>
    exact hhere _ _ hpass hbelow
  | @pending skipped _ _ hpass hmark hoffset _ _ hline hblank =>
    have hskip := hpass.offset
    rw [Cluster.bytes_nil, Nat.add_zero] at hskip
    have hstop : t.stop = t.offset := by
      rw [Token.stop, hmark.2]
      rfl
    rw [hpass.rest, nil_append]
    refine .layout hpass.trivia hmark.2 (by omega) hbelow ?_
    rw [← hskip]
    exact hlater _ (.inr ⟨by omega, hline, hblank⟩)

theorem Trace.tiles {us : List Token} (h : l.Trace ts m) (hfloor : l.Floor floor)
    (hlater : ∀ floor, m.Floor floor → Tiles floor m.cursor.offset m.cursor.rest us) :
    Tiles floor l.cursor.offset l.cursor.rest (ts ++ us) := by
  induction h generalizing floor with
  | refl => exact hlater floor hfloor
  | step hl hscan hkind _ ih => exact tiles_step hscan hfloor fun floor hm => ih hm hlater

end Lexer

namespace Scan

variable {file source : String} {eof : Token}

theorem tiles (h : (Scan.of file source).ending = .eof eof) :
    Tiles 0 0 (Cluster.segment source) (Scan.of file source).all := by
  obtain ⟨m, n, htrace, hend, hkind⟩ := (Scan.ends_of _ _).of_eof h
  have hall : (Scan.of file source).all = (Scan.of file source).tokens ++ [eof] := by
    rw [Scan.all, h]
    rfl
  obtain ⟨-, -, hrest, -⟩ := (Lexer.step_of_scan hend).of_eof hkind
  rw [hall]
  refine htrace.tiles (.inl (Nat.le_refl 0)) fun floor hm => Lexer.tiles_step hend hm fun _ _ => ?_
  rw [hrest]
  exact .nil _ _

/-- In a scan without a fault each literal is found in the source at the offset of its token, the
literals follow each other without an overlap, and every cluster that starts outside of them is blank
or lies in a comment. -/
theorem covers_source (h : (Scan.of file source).ending = .eof eof) :
    (∀ t ∈ (Scan.of file source).all, t.IsSlice source) ∧
      (Scan.of file source).all.Pairwise (·.stop ≤ ·.offset) ∧
      ∀ before k after, Cluster.segment source = before ++ k :: after →
        IsCovered (Scan.of file source).all (bytes before) ∨ isBlankChar k.first = true ∨
          InComment (IsCovered (Scan.of file source).all) before k := by
  have htiles := Scan.tiles h
  refine ⟨fun t ht => ?_, htiles.pairwise, fun before k after hsource => ?_⟩
  · obtain ⟨n, hn⟩ := List.mem_iff_getElem?.mp ht
    rw [← Scan.next_of_all hn]
    exact ((Lexer.sited_start file source).after n).next.1
  · have hplaced := htiles.placed hsource
    simp only [Nat.zero_add] at hplaced
    exact hplaced

/-- A comment on a line of its own and one after a string with a character of two bytes. -/
theorem covers_source_comments :
    (Scan.of "" "x 'é'# y\r\n # z\n").ending = .eof ⟨.eof, "", 3, 1, 16⟩ ∧
      (Scan.of "" "x 'é'# y\r\n # z\n").all.map (·.literal) = ["x", "'é'", "\r\n", ""] ∧
      (∀ t ∈ (Scan.of "" "x 'é'# y\r\n # z\n").all, t.IsSlice "x 'é'# y\r\n # z\n") ∧
      (Scan.of "" "x 'é'# y\r\n # z\n").all.Pairwise (·.stop ≤ ·.offset) ∧
      ∀ before k after, Cluster.segment "x 'é'# y\r\n # z\n" = before ++ k :: after →
        IsCovered (Scan.of "" "x 'é'# y\r\n # z\n").all (bytes before) ∨
          isBlankChar k.first = true ∨
          InComment (IsCovered (Scan.of "" "x 'é'# y\r\n # z\n").all) before k := by
  have hend : (Scan.of "" "x 'é'# y\r\n # z\n").ending = .eof ⟨.eof, "", 3, 1, 16⟩ := by
    decide +kernel
  exact ⟨hend, by decide +kernel, covers_source hend⟩

end Scan

end Stencil
