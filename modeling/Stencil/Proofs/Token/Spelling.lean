import Mathlib.Data.List.TakeWhile
import Stencil.Proofs.Text.Cuts
import Stencil.Proofs.Token.Results

/-!
# How tokens are spelled

The literal of a word, a number, a string or a dash is the text of clusters of the source, and the
characters that lead these clusters are the ones of its kind. What else is in such a cluster are
marks that no reader of tokens looks at; none of them is an ASCII character.
-/
namespace Stencil

open Text (Cluster BreakClass BreakContext isLetter isDigit)
open List

/-! ## Spellings -/

namespace Lexeme

/-- Which clusters a token may be made of, for kinds whose literal matters. A sign is an operator. -/
inductive Spells : TokenKind → List Cluster → Prop where
  | word {k : Cluster} {ks : List Cluster} (hstart : isLetter k.lead = true)
      (hparts : ∀ j ∈ k :: ks, isNamePart j.lead = true) :
      Spells (.ofWord (Cluster.text (k :: ks))) (k :: ks)
  | styleWord {k : Cluster} {ks : List Cluster} (hstart : isStyleWordStart k.lead = true)
      (hparts : ∀ j ∈ k :: ks, isStyleWordPart j.lead = true) : Spells .styleWord (k :: ks)
  | number {k : Cluster} {ks : List Cluster} (hstart : isDigit k.lead = true)
      (hparts : ∀ j ∈ k :: ks, isDigit j.lead = true ∨ j.lead = '_' ∨ j.lead = '.') :
      Spells .number (k :: ks)
  | string {k : Cluster} {ks : List Cluster} (hquote : k.lead = '"' ∨ k.lead = '\'')
      (hrest : stringRest k.lead ks = some ks.length) : Spells .string (k :: ks)
  | sign {kind : TokenKind} {k : Cluster} {next : Option Char} {ks : List Cluster}
      (hsign : operator k.lead next = some (kind, ks.length + 1)) : Spells kind (k :: ks)

variable {ks : List Cluster} {k : Cluster}

theorem mem_take_run {part : Char → Bool} (h : k ∈ ks.take (run part ks)) : part k.lead := by
  rw [run, ← prefix_iff_eq_take.mp ( takeWhile_prefix _)] at h
  simpa using mem_takeWhile_imp h

theorem mem_take_number (h : k ∈ ks.take (number ks)) :
    isDigit k.lead ∨ k.lead = '_' ∨ k.lead = '.' := by
  induction ks with
  | nil => simp at h
  | cons j ks ih =>
    rw [number] at h
    split at h
    · next hpart =>
      rw [Nat.add_comm, take_succ_cons, mem_cons] at h
      rcases h with rfl | hlater
      · simp only [Bool.or_eq_true, Bool.and_eq_true, decide_eq_true_eq] at hpart
        tauto
      · exact ih hlater
    · simp at h

end Lexeme

/-- The kinds whose tokens are more than their kind. -/
def TokenKind.isSpelled : TokenKind → Bool
  | .identifier | .keyword _ | .styleWord | .number | .string | .dash => true
  | _ => false

variable {t : Token}

theorem Token.isSpelled_of_isWord (h : t.isWord) : t.kind.isSpelled := by
  unfold isWord at h
  split at h
  · next hkind => rw [hkind]; rfl
  · next hkind => rw [hkind]; rfl
  · cases h

theorem isSpelled_of_isNamePiece (h : isNamePiece t) : t.kind.isSpelled := by
  simp only [isNamePiece, Bool.or_eq_true, decide_eq_true_eq] at h
  rcases h with (h | h) | h
  · rw [h]; rfl
  · rw [h]; rfl
  · exact Token.isSpelled_of_isWord h

/-- The literal is the text of clusters that spell a token of its kind, and a bracket leads one of
the clusters. -/
structure Token.SpelledIn (source : List Cluster) (t : Token) : Prop where
  literal : t.kind.isSpelled = true →
    ∃ ks, ks <:+: source ∧ t.literal = Cluster.text ks ∧ Lexeme.Spells t.kind ks
  opening : ∀ b, t.kind = .opening b → ∃ k ∈ source, k.lead = b.opening

theorem Token.SpelledIn.mono {source source' : List Cluster} (h : t.SpelledIn source)
    (hsource : source <:+ source') : t.SpelledIn source' := by
  refine ⟨fun hspelled => ?_, fun b hb => ?_⟩
  · obtain ⟨ks, hks, hspells⟩ := h.literal hspelled
    exact ⟨ks, hks.trans hsource.isInfix, hspells⟩
  · obtain ⟨k, hk, hlead⟩ := h.opening b hb
    exact ⟨k, hsource.subset hk, hlead⟩

namespace Lexer

variable {l m : Lexer} {t : Token} {k : Cluster} {rest : List Cluster} {result : Scanned}
  {kind : TokenKind} {length : Nat}

/-- What a scan comes to is spelled in the rest of the source. -/
def Writes (l : Lexer) : Scanned → Prop
  | .ok (t, _) => t.SpelledIn l.cursor.rest
  | .error _ => True

theorem writes_fail (cause : Cause) (length : Nat) : l.Writes (m.fail cause length) := trivial

theorem writes_of_not_isSpelled (h : t.kind.isSpelled = false)
    (hb : ∀ b, t.kind = .opening b → ∃ k ∈ l.cursor.rest, k.lead = b.opening) :
    l.Writes (.ok (t, m)) :=
  ⟨fun hspelled => absurd (h.symm.trans hspelled) Bool.false_ne_true, hb⟩

theorem Writes.of_skip {n : Nat} (h : Writes { l with cursor := l.cursor.skip n } result) :
    l.Writes result := by
  cases result with
  | error failure => trivial
  | ok next =>
    refine Token.SpelledIn.mono h ?_
    rw [Cursor.rest_skip]
    exact drop_suffix _ _

theorem writes_take (hm : m.cursor = l.cursor) (hkind : ∀ b, kind ≠ .opening b)
    (hspells : kind.isSpelled → Lexeme.Spells kind (l.cursor.rest.take length)) :
    l.Writes (.ok (m.take kind length)) := by
  refine ⟨fun hspelled => ?_, fun b hb => absurd hb (hkind b)⟩
  refine ⟨l.cursor.rest.take length, ( take_prefix _ _).isInfix, ?_, hspells hspelled⟩
  rw [← hm]
  rfl

theorem writes_run (hrest : l.cursor.rest = k :: rest) {part : Char → Bool}
    (hk : part k.lead) : ∃ ks, l.cursor.rest.take (Lexeme.run part l.cursor.rest) = k :: ks ∧
      ∀ j ∈ k :: ks, part j.lead := by
  have hpos := @run_pos rest k part hk
  obtain ⟨n, hn⟩ := Nat.exists_eq_succ_of_ne_zero (Nat.pos_iff_ne_zero.mp hpos)
  rw [← hrest] at hn
  refine ⟨rest.take n, by rw [hn, hrest, take_succ_cons], fun j hj => ?_⟩
  refine @Lexeme.mem_take_run l.cursor.rest j part ?_
  rwa [hn, hrest, Nat.succ_eq_add_one, take_succ_cons]

theorem operator_length {c : Char} {next : Option Char}
    (h : Lexeme.operator c next = some (kind, length)) (hkind : kind.isSpelled) :
    length = 1 := by
  unfold Lexeme.operator at h
  dsimp only at h
  split at h <;> (try split at h) <;> cases h <;> first | rfl | cases hkind

theorem operator_ne_opening {c : Char} {next : Option Char}
    (h : Lexeme.operator c next = some (kind, length)) (b : Bracket) : kind ≠ .opening b := by
  unfold Lexeme.operator at h
  dsimp only at h
  split at h <;> (try split at h) <;> cases h <;> exact TokenKind.noConfusion

theorem Takes.writes (h : l.Takes k rest result) (hrest : l.cursor.rest = k :: rest) :
    l.Writes result := by
  cases h with
  | string hquote hlength =>
    refine writes_take rfl (fun _ => TokenKind.noConfusion) fun _ => ?_
    obtain ⟨-, hle⟩ := Lexeme.stringRest_pos hlength
    rw [hrest, take_succ_cons]
    refine .string hquote ?_
    rw [length_take, Nat.min_eq_left hle]
    exact Lexeme.stringRest_take hlength
  | closing => exact writes_of_not_isSpelled rfl fun _ hb => by cases hb
  | @opening b hb =>
    refine writes_of_not_isSpelled rfl ?_
    rintro _ ⟨⟩
    have hopening : b.opening = k.lead := by simpa using find?_some hb
    exact ⟨k, hrest ▸ mem_cons_self, hopening.symm⟩
  | unterminated | unmatched | unexpected => exact writes_fail _ _
  | styleWord hstart =>
    refine writes_take rfl (fun _ => TokenKind.noConfusion) fun _ => ?_
    obtain ⟨ks, hks, hparts⟩ := @writes_run l k rest hrest Lexeme.isStyleWordPart
      (by rw [Lexeme.isStyleWordPart, hstart]; rfl)
    rw [hks]
    exact .styleWord hstart hparts
  | word hletter =>
    refine @writes_take l { l with mode := _ } _ _ rfl ?_ fun _ => ?_
    · intro b
      unfold TokenKind.ofWord
      split <;> exact TokenKind.noConfusion
    obtain ⟨ks, hks, hparts⟩ := @writes_run l k rest hrest Lexeme.isNamePart
      (by rw [Lexeme.isNamePart, hletter]; rfl)
    dsimp only
    rw [hks]
    exact .word hletter hparts
  | number hdigit =>
    refine writes_take rfl (fun _ => TokenKind.noConfusion) fun _ => ?_
    have htake : l.cursor.rest.take (Lexeme.number l.cursor.rest) =
        k :: rest.take (Lexeme.number rest) := by
      rw [hrest, Lexeme.number_cons hdigit, take_succ_cons]
    rw [htake]
    exact .number hdigit fun j hj => Lexeme.mem_take_number (htake ▸ hj)
  | sign _ hsign =>
    refine writes_take rfl (operator_ne_opening hsign) fun hspelled => ?_
    obtain rfl := operator_length hsign hspelled
    rw [hrest]
    exact .sign hsign

theorem Gives.writes (h : l.Gives result) : l.Writes result := by
  cases h with
  | lastLine | lastLevel | eof | newline =>
    exact writes_of_not_isSpelled rfl fun _ hb => by cases hb
  | cluster hrest _ htakes => exact htakes.writes hrest

theorem Branches.writes (h : l.Branches result) : l.Writes result := by
  cases h with
  | gives hcomes hgives =>
    obtain ⟨n, rfl⟩ := hcomes.exists_skip
    exact hgives.writes.of_skip
  | lays _ hlays =>
    cases hlays with
    | tab | uneven => exact writes_fail _ _
    | indent | dedent | pending => exact writes_of_not_isSpelled rfl fun _ hb => by cases hb

end Lexer

/-- The operators whose tokens are more than their kind. -/
theorem operator_cases {c : Char} {next : Option Char} {kind : TokenKind} {length : Nat}
    (h : Lexeme.operator c next = some (kind, length)) (hkind : kind.isSpelled) :
    (c = '-' ∧ kind = .dash) ∨ (c = '!' ∧ kind = .keyword .not) := by
  unfold Lexeme.operator at h
  dsimp only at h
  split at h <;> (try split at h) <;> cases h <;> simp_all [TokenKind.isSpelled]

/-- Every token of a source is spelled in it. -/
theorem Scan.spelledIn (file source : String) :
    (∀ t ∈ (Scan.of file source).tokens, t.SpelledIn (Cluster.segment source)) ∧
      (Scan.of file source).ending.token.SpelledIn (Cluster.segment source) := by
  refine (Scan.ends_of file source).all_tokens (I := fun l => l.cursor.rest <:+ Cluster.segment source)
    ?_ ?_ (suffix_refl _)
  · intro t ht
    refine ⟨fun h => ?_, fun b hb => ?_⟩
    · rw [ht] at h
      exact absurd h Bool.false_ne_true
    · rw [ht] at hb
      cases hb
  · intro l t m hl hscan
    obtain ⟨skipped, taken, hpass⟩ := (Lexer.step_of_scan hscan).passes
    have hwrites := (Lexer.scan_branches l).writes
    rw [hscan] at hwrites
    refine ⟨Token.SpelledIn.mono hwrites hl, ?_⟩
    · have hm : m.cursor.rest <:+ l.cursor.rest := by
        rw [hpass.rest, ← append_assoc]
        exact suffix_append _ _
      exact hm.trans hl

/-- In every reading the tokens are spelled in the source. -/
def SpelledFrom (source : String) (_ : Reading) (t : Token) : Prop :=
  t.SpelledIn (Cluster.segment source)

/-- What holds of a template if its tokens are spelled in the source. -/
theorem Template.of_read_spelled {file source : String} {t : Template} {P : Template → Prop}
    (hP : Template.parser.Gives (SpelledFrom source) P) (h : Template.read file source = .ok t) :
    P t :=
  Template.of_read hP (Scan.spelledIn file source) h

end Stencil
