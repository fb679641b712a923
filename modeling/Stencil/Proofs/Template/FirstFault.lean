import Stencil.Proofs.Template.Alignment
import Stencil.Proofs.Token.Places

/-!
# The first fault

A reading ends with the first fault, and reports that one for ever. A fault that a reader finds stands
at a token, and only past the last token is the fault of the scan reported. No token is after that
one, so a source whose scan fails has a fault there or before. A source that is read to its end was
scanned to its end, and its brackets are balanced.
-/
namespace Stencil

open Stencil.Parser

namespace Scan

/-- What is known of a fault by the scan: it has ended the scan, or a reader found it at a token. -/
def Finds (scan : Scan) (file : String) (fault : Fault) : Prop :=
  (∃ t, scan.ending = .fault t fault) ∨
    (fault.cause.isSyntax = true ∧ ∃ t ∈ scan.all, fault.position = t.position file)

variable {scan : Scan} {split : String → List Segment}

theorem finds_at {t : Token} (ht : t ∈ scan.all) (file : String) {cause : Cause}
    (h : cause.isSyntax) : scan.Finds file ⟨t.position file, cause⟩ :=
  .inr ⟨h, t, ht, rfl⟩

/-- A literal is refused only at a string of the scan that has no value. -/
def Grounds (scan : Scan) (fault : Fault) : Prop :=
  (∃ t, scan.ending = .fault t fault) ∨ ∃ t ∈ scan.all, fault.cause.IsAt t

/-- How the tokens of a scan are read. -/
def reading (scan : Scan) (file : String) (split : String → List Segment) : Reading :=
  ⟨file, scan.ending, split⟩

/-- The two ways to split a text agree on the strings of a scan. -/
def SplitsAlike (scan : Scan) (split split' : String → List Segment) : Prop :=
  ∀ t ∈ scan.all, t.kind = .string → ∀ text, Literal.value t.literal = .ok text →
    split' text = split text

theorem SplitsAlike.refl (scan : Scan) (split : String → List Segment) :
    scan.SplitsAlike split split := fun _ _ _ _ _ => rfl

/-- The tokens of a scan are related to themselves. -/
def relocation (scan : Scan) (file : String) {split split' : String → List Segment}
    (hsplit : scan.SplitsAlike split split') (hended : (scan.reading file split).IsEnded)
    (counted : Prop) : Relocation where
  left := scan.reading file split
  right := scan.reading file split'
  lines := 0
  more := []
  whole := True
  counted := counted
  token t u := t = u ∧ t ∈ scan.all
  fault f g := f = g ∧ scan.Finds file f ∧ scan.Grounds f
  kind h := h.1 ▸ rfl
  literal h _ := h.1 ▸ rfl
  position h _ := h.1 ▸ rfl
  joined h h' _ _ := h.1 ▸ h'.1 ▸ Iff.rfl
  split h := hsplit _ h.2
  ending _ := ⟨rfl, List.mem_append_right _ (List.mem_singleton_self _)⟩
  expected := by
    rintro - t u ⟨rfl, ht⟩ what
    exact ⟨rfl, finds_at ht file rfl, .inr ⟨t, ht, nofun⟩⟩
  refused := by
    rintro - t u ⟨rfl, ht⟩ cause hcause hat
    exact ⟨rfl, finds_at ht file hcause, .inr ⟨t, ht, hat⟩⟩
  stopped _ _ hcause := by
    unfold Reading.faultAt reading
    cases hending : scan.ending with
    | eof t => exact hcause ⟨rfl, List.mem_append_right _ (by rw [hending]; exact .head _)⟩
    | fault t f => exact ⟨rfl, .inl ⟨t, hending⟩, .inl ⟨t, hending⟩⟩
  ended := hended
  partner h := absurd trivial h
  eof h := absurd trivial h
  follow h := absurd trivial h
  counts _ := trivial

section Tokens

variable {split' : String → List Segment} {file : String} {counted : Prop}
  (hsplit : scan.SplitsAlike split split') (hended : (scan.reading file split).IsEnded)

theorem tokens_relocation :
    (scan.relocation file hsplit hended counted).Tokens scan.tokens scan.tokens :=
  List.forall₂_same.mpr fun _ ht => ⟨rfl, List.mem_append_left _ ht⟩

theorem isSingle_relocation : (scan.relocation file hsplit hended False).IsSingle :=
  ⟨trivial, rfl, id⟩

end Tokens

/-- What is known of the fault of a reader that follows related tokens. -/
theorem of_error {α : Type} {p : Parser α} {move : Nat → α → α}
    (hp : ∀ {S : Relocation}, S.IsSingle → ∀ {bound}, Tracks S bound anyKind (move S.lines) p p)
    {file : String} {fault : Fault} (hended : (scan.reading file split).IsEnded)
    (h : (p ⟨file, scan.ending, split⟩ scan.tokens).map Prod.fst = .error fault) :
    scan.Finds file fault ∧ scan.Grounds fault := by
  have hlead := (hp (isSingle_relocation (.refl _ split) hended)).run (Nat.lt_succ_self _) trivial
    (tokens_relocation _ hended)
  cases hresult : p ⟨file, scan.ending, split⟩ scan.tokens with
  | ok result => rw [hresult] at h; cases h
  | error fault' =>
    rw [hresult] at h
    cases h
    obtain ⟨g, -, -, hfault⟩ := hlead.error hresult trivial
    exact hfault

end Scan

/-- A reader does the same in readings that end together and are on the same lines. -/
theorem Relocation.same {S : Relocation} {α : Type} {p : Parser α} {move : Nat → α → α}
    (hp : ∀ {S : Relocation}, S.IsSingle → ∀ {bound}, Tracks S bound anyKind (move S.lines) p p)
    (hsingle : S.IsSingle) (hlines : S.lines = 0) {ts us : List Token} (h : S.Tokens ts us)
    {left right : Reading} (hleft : S.left = left) (hright : S.right = right) :
    (∃ a, (p left ts).map Prod.fst = .ok a ∧ (p right us).map Prod.fst = .ok a) ∨
      ∃ f g, (p left ts).map Prod.fst = .error f ∧ (p right us).map Prod.fst = .error g ∧
        S.fault f g := by
  subst hleft hright
  have hended : (Scan.reading ⟨ts, S.left.ending⟩ S.left.file S.left.split).IsEnded := S.ended
  have hself := (hp (Scan.isSingle_relocation (.refl _ _) hended)).run (Nat.lt_succ_self _) trivial
    (Scan.tokens_relocation _ hended)
  have hlead := (hp hsingle).run (Nat.lt_succ_self _) trivial h
  cases hresult : p S.left ts with
  | ok result =>
    obtain ⟨rest, hright, -⟩ := hlead.ok hresult (.inr (.inl hsingle.whole))
    rw [hsingle.more, List.append_nil, hlines] at hright
    obtain ⟨rest', hleft, -⟩ := hself.ok hresult (.inr (.inl trivial))
    have hsame : result.1 = move 0 result.1 := by
      have hleft' := hresult.symm.trans (List.append_nil ts ▸ hleft)
      exact congrArg Prod.fst (Except.ok.inj hleft')
    exact .inl ⟨result.1, rfl, by rw [hright, ← hsame]; rfl⟩
  | error f =>
    obtain ⟨g, hright, hfault⟩ := hlead.error hresult hsingle.whole
    rw [hsingle.more, List.append_nil] at hright
    exact .inr ⟨f, g, rfl, by rw [hright]; rfl, hfault⟩

namespace Template

variable {file source : String} {t : Template} {fault : Fault}

/-- Where the fault of a source is. -/
theorem finds_of_read (h : Template.read file source = .error fault) :
    (Scan.of file source).Finds file fault := by
  rw [read_eq] at h
  exact (Scan.of_error (fun h => parser_tracks h.whole) (Scan.isEnded file source) h).1

theorem areBalanced_of_read (h : Template.read file source = .ok t) :
    (∃ eof, (Scan.of file source).ending = .eof eof) ∧
      areBalanced (Scan.of file source).tokens := by
  obtain ⟨ts, e, hscanned⟩ := scanned_of_read h
  obtain ⟨m, n, htrace, -, -⟩ := (Scan.ends_of _ _).of_eof (by rw [hscanned.scan])
  have hbrackets := htrace.brackets
  rw [hscanned.scan] at htrace hbrackets ⊢
  have hclosed : m.brackets = [] := by
    rcases hscanned.settled with rfl | hsettled
    · cases htrace
      rfl
    · exact htrace.brackets_of_settled (Nat.le_refl _) hsettled
  refine ⟨⟨e, rfl⟩, ?_⟩
  rw [areBalanced, decide_eq_true_eq]
  exact hbrackets.trans (congrArg some hclosed)

end Template

namespace Session

/-- A reading gives a template and no fault, or one fault and no template, and then the same again. -/
theorem read_once (s : Session) (h : s.fault = none) :
    (∃ t, s.read.1 = .ok t ∧ s.read.2.faults.entries = []) ∨
      ∃ fault, s.read.1 = .error fault ∧ s.read.2.faults.entries = [fault.diagnostic] ∧
        s.read.2.read = (.error fault, s.read.2) := by
  obtain ⟨reading, tokens, fault⟩ := s
  obtain rfl : fault = none := h
  cases hparser : Template.parser reading tokens with
  | ok result =>
    have hread : read ⟨reading, tokens, none⟩ = (.ok result.1, ⟨reading, result.2, none⟩) := by
      rw [read, hparser]
    rw [hread]
    exact .inl ⟨result.1, rfl, rfl⟩
  | error fault =>
    have hread : read ⟨reading, tokens, none⟩ = (.error fault, ⟨reading, tokens, some fault⟩) := by
      rw [read, hparser]
    rw [hread]
    exact .inr ⟨fault, rfl, rfl, rfl⟩

/-- The first fault is the only one, and it is the fault of the scan or one that a reader finds not
after it. -/
theorem first_fault (file source : String) :
    ((∃ t, (start file source).read.1 = .ok t ∧ (start file source).read.2.faults.entries = []) ∨
      ∃ fault, (start file source).read.1 = .error fault ∧
        (start file source).read.2.faults.entries = [fault.diagnostic] ∧
        (start file source).read.2.read = (.error fault, (start file source).read.2)) ∧
    (∀ t found, (Scan.of file source).ending = .fault t found →
      ∃ fault, Template.read file source = .error fault ∧ (fault = found ∨
        (fault.cause.isSyntax = true ∧ fault.position.NotAfter found.position))) ∧
    ∀ t, Template.read file source = .ok t →
      (∃ eof, (Scan.of file source).ending = .eof eof) ∧
        areBalanced (Scan.of file source).tokens = true := by
  refine ⟨read_once _ rfl, fun t found hending => ?_, fun t => Template.areBalanced_of_read⟩
  cases hread : Template.read file source with
  | ok template =>
    obtain ⟨⟨eof, heof⟩, -⟩ := Template.areBalanced_of_read hread
    rw [hending] at heof
    cases heof
  | error fault =>
    refine ⟨fault, rfl, ?_⟩
    rcases Template.finds_of_read hread with ⟨u, hend⟩ | ⟨hcause, u, hu, hposition⟩
    · rw [hending] at hend
      cases hend
      exact .inl rfl
    · refine .inr ⟨hcause, ?_⟩
      rw [hposition]
      exact Scan.notAfter_fault hending u hu

theorem first_fault_unmatched :
    (Scan.of "" "=\n)").ending =
        .fault ⟨.error, ")", 2, 1, 2⟩ ⟨⟨"", 2, 1⟩, .unmatchedClosing ')'⟩ ∧
      ∃ fault, Template.read "" "=\n)" = .error fault ∧
        (fault = ⟨⟨"", 2, 1⟩, .unmatchedClosing ')'⟩ ∨
          (fault.cause.isSyntax = true ∧ fault.position.NotAfter ⟨"", 2, 1⟩)) := by
  have hending : (Scan.of "" "=\n)").ending =
      .fault ⟨.error, ")", 2, 1, 2⟩ ⟨⟨"", 2, 1⟩, .unmatchedClosing ')'⟩ := by
    decide +kernel
  exact ⟨hending, (first_fault "" "=\n)").2.1 _ _ hending⟩

end Session

end Stencil
