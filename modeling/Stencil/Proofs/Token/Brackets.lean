import Stencil.Proofs.Token.Places

/-!
# Brackets and layout

Which closing bracket of a source is the first that closes nothing is found without tokens: by going
over the clusters once, past strings and comments, with the open brackets at hand. The scanner
agrees with this. It stops for an unmatched bracket just where there is one, unless another fault
stops it before, and the tokens of lines and levels leave the open brackets alone.
-/
namespace Stencil

open Text (Cluster)
open Text.Cluster (bytes bytes_nil bytes_cons)

/-! ## Unmatched brackets of a source -/

/-- The first closing bracket outside strings and comments that is not that of the innermost open
one, with its offset. -/
def unmatchedFrom (offset : Nat) (opened : List Bracket) (zone : Zone) :
    List Cluster → Option (Nat × Char)
  | [] => none
  | k :: ks =>
    match if zone = .plain then nestChar opened k.lead else some opened with
    | none => some (offset, k.lead)
    | some later => unmatchedFrom (offset + k.size) later (zone.next k) ks

def firstUnmatched (source : String) : Option (Nat × Char) :=
  unmatchedFrom 0 [] .plain (Cluster.segment source)

-- The brackets in the string and in the comment are none.
example : firstUnmatched "f(\")]\") # )\n[)" = some (13, ')') := by decide +kernel

/-- The brackets that tokens leave open, innermost first. -/
def openAfter (ts : List Token) : Option (List Bracket) :=
  (ts.map (·.kind)).foldlM TokenKind.nest []

/-- How a token fits behind open brackets: it closes the innermost of them, it ends or begins a line
outside of them all, or it closes a level while they go on at the end of the source. -/
structure Token.IsNested (source : String) (opened : List Bracket) (t : Token) : Prop where
  closing : ∀ b, t.kind = .closing b → opened.head? = some b
  line : t.kind = .newline ∨ t.kind = .indent → opened = []
  level : t.kind = .dedent → opened ≠ [] → t.offset = source.utf8ByteSize

/-! ## Going over clusters -/

section Walk

variable {offset p : Nat} {opened later : List Bracket} {zone : Zone} {n m : Nesting} {c : Char}
  {k : Cluster} {ks rest : List Cluster}

theorem le_of_unmatchedFrom (h : unmatchedFrom offset opened zone ks = some (p, c)) :
    offset ≤ p := by
  induction ks generalizing offset opened zone with
  | nil => cases h
  | cons k ks ih =>
    rw [unmatchedFrom] at h
    split at h
    · cases h
      exact Nat.le_refl _
    · have := ih h
      omega

theorem unmatchedFrom_cons (h : n.next k = some m) (offset : Nat) (ks : List Cluster) :
    unmatchedFrom offset n.opened n.zone (k :: ks) =
      unmatchedFrom (offset + k.size) m.opened m.zone ks := by
  obtain ⟨later, hlater, rfl⟩ := Option.map_eq_some_iff.mp h
  rw [unmatchedFrom, hlater]

/-- What is open after clusters decides on the rest. -/
theorem unmatchedFrom_append (h : n.after ks = some m) (offset : Nat) (rest : List Cluster) :
    unmatchedFrom offset n.opened n.zone (ks ++ rest) =
      unmatchedFrom (offset + bytes ks) m.opened m.zone rest := by
  induction ks generalizing offset n with
  | nil =>
    cases h
    rfl
  | cons k ks ih =>
    rw [Nesting.after, List.foldlM_cons] at h
    obtain ⟨inner, hinner, hlater⟩ := Option.bind_eq_some_iff.mp h
    rw [List.cons_append, unmatchedFrom_cons hinner, ih hlater, bytes_cons, Nat.add_assoc]

/-- At the end of its line a comment is over. -/
theorem unmatchedFrom_between {comment : Bool} (h : Nesting.Lasts comment ks) (offset : Nat)
    (opened : List Bracket) :
    unmatchedFrom offset opened (.between comment) ks = unmatchedFrom offset opened .plain ks := by
  cases ks with
  | nil => rfl
  | cons k ks =>
    cases comment with
    | false => rfl
    | true =>
      have hnext := Nesting.next_lineBreak (h rfl k rfl) opened
      exact (unmatchedFrom_cons (hnext true) offset ks).trans
        (unmatchedFrom_cons (hnext false) offset ks).symm

theorem unmatchedFrom_clears (h : Nesting.Clears opened ks rest later) (offset : Nat) :
    unmatchedFrom (offset + bytes ks) later .plain rest =
      unmatchedFrom offset opened .plain (ks ++ rest) := by
  obtain ⟨comment, hafter, hlasts⟩ := h
  exact (unmatchedFrom_between hlasts _ _).symm.trans (unmatchedFrom_append hafter offset rest).symm

end Walk

/-! ## Tokens -/

namespace Lexer

variable {l m n : Lexer} {t : Token} {k : Cluster} {rest : List Cluster}

/-- The first unmatched bracket from the cursor on. -/
def unmatched (l : Lexer) : Option (Nat × Char) :=
  unmatchedFrom l.cursor.offset l.brackets .plain l.cursor.rest

theorem Walks.unmatched (h : l.Walks m) : m.unmatched = l.unmatched := by
  obtain ⟨n, hcursor, hclears⟩ := h
  have hwalk := unmatchedFrom_clears hclears l.cursor.offset
  have hrest : m.cursor.rest = l.cursor.rest.drop n := by rw [hcursor, Cursor.rest_skip]
  have hoffset : m.cursor.offset = l.cursor.offset + bytes (l.cursor.rest.take n) := by
    rw [hcursor, Cursor.offset_skip]
  rwa [← hoffset, hrest, List.take_append_drop, ← hrest] at hwalk

/-- A fault is the first unmatched bracket or stands in front of it. -/
theorem unmatched_of_scan {fault : Fault} (h : l.scan = .error ((t, fault), m)) :
    (∀ c, fault.cause = .unmatchedClosing c → l.unmatched = some (t.offset, c)) ∧
      ∀ p c, l.unmatched = some (p, c) → t.offset ≤ p := by
  obtain ⟨k, hwalks, hoffset, hstands⟩ := stands_of_scan h
  rw [hoffset, ← hwalks.unmatched]
  constructor
  · intro c hc
    obtain ⟨j, rest, hrest, rfl, hnest⟩ := hstands.bracket c hc
    rw [unmatched, hrest, unmatchedFrom, if_pos rfl, hnest]
  · intro p c hp
    exact le_of_unmatchedFrom hp

/-! ## Whole runs -/

theorem head?_of_nest {b : Bracket} {opened later : List Bracket}
    (h : (TokenKind.closing b).nest opened = some later) : opened.head? = some b := by
  cases opened with
  | nil => cases h
  | cons top outer =>
    rw [TokenKind.nest] at h
    split at h
    · next htop => rw [List.head?_cons, htop]
    · cases h

/-- A token behind the brackets that are open at the scanner. -/
theorem isNested_of_scan {source : String} (hl : l.Sited source) (hcolumn : 1 ≤ l.cursor.column)
    (hscan : l.scan = .ok (t, m)) : t.IsNested source l.brackets := by
  have hnest := (places_of_scan l.isPast_cursor hscan).brackets
  have hpaces := l.scan_branches.paces
  rw [hscan] at hpaces
  constructor
  · intro b hb
    rw [hb] at hnest
    exact head?_of_nest hnest
  · intro hkind
    have houtside := (leaves_of_scan hcolumn hscan).outside hkind
    have hsame : t.kind.nest l.brackets = some l.brackets := by
      rcases hkind with hkind | hkind <;> rw [hkind] <;> cases l.brackets <;> rfl
    rw [hsame, houtside] at hnest
    exact Option.some.inj hnest
  · intro hkind hne
    obtain ⟨hrest, hoffset⟩ := hpaces.2 hkind hne
    obtain ⟨skipped, taken, hpass⟩ := (step_of_scan hscan).passes
    have hsize := (hpass.sited hl).offset_add_le
    rw [hrest, bytes_nil] at hsize
    omega

end Lexer

namespace Scan

variable {file source : String} {n : Nat} {t : Token}

theorem isNested_of_mem (ht : (Scan.of file source).tokens[n]? = some t) :
    ∃ opened, openAfter ((Scan.of file source).tokens.take n) = some opened ∧
      t.IsNested source opened := by
  obtain ⟨m, htrace, -⟩ := exists_trace file source
  obtain ⟨hn, rfl⟩ := List.getElem?_eq_some_iff.mp ht
  obtain ⟨hbefore, hlater⟩ := htrace.between (Nat.le_of_lt hn)
  rw [List.drop_eq_getElem_cons hn] at hlater
  refine ⟨_, hbefore.brackets, ?_⟩
  cases hlater with
  | step hl hscan =>
    exact Lexer.isNested_of_scan ((Lexer.sited_start file source).after n)
      (hbefore.one_le_column (Nat.le_refl 1)) hscan

/-- A fault for an unmatched bracket stands at the first one, and no other fault stands behind
it. -/
theorem unmatched_of_fault {fault : Fault} (h : (Scan.of file source).ending = .fault t fault) :
    (∀ c, fault.cause = .unmatchedClosing c → firstUnmatched source = some (t.offset, c)) ∧
      ∀ p c, firstUnmatched source = some (p, c) → t.offset ≤ p := by
  obtain ⟨m, n, htrace, hscan⟩ := (Scan.ends_of _ _).of_fault h
  have hunmatched := Lexer.unmatched_of_scan hscan
  have hstart : (Lexer.start file source).unmatched = firstUnmatched source := rfl
  rwa [htrace.walks.unmatched, hstart] at hunmatched

/-- A source without a fault has no unmatched bracket. -/
theorem firstUnmatched_of_eof (h : (Scan.of file source).ending = .eof t) :
    firstUnmatched source = none := by
  obtain ⟨m, n, htrace, hscan, hkind⟩ := (Scan.ends_of _ _).of_eof h
  have hstart : (Lexer.start file source).unmatched = firstUnmatched source := rfl
  obtain ⟨-, -, hrest, -⟩ := (Lexer.step_of_scan hscan).of_eof hkind
  rw [← hstart, ← (htrace.walks.trans (Lexer.walks_of_scan hscan)).unmatched, Lexer.unmatched,
    hrest]
  rfl

theorem fault_iff_unmatched (file source : String) (p : Nat) (c : Char) :
    (∃ t fault, (Scan.of file source).ending = .fault t fault ∧
        fault.cause = .unmatchedClosing c ∧ t.offset = p) ↔
      firstUnmatched source = some (p, c) ∧
        ∀ t fault, (Scan.of file source).ending = .fault t fault → t.offset ≤ p →
          fault.cause = .unmatchedClosing c := by
  constructor
  · rintro ⟨t, fault, hend, hcause, rfl⟩
    refine ⟨(unmatched_of_fault hend).1 c hcause, fun u found hfound _ => ?_⟩
    obtain ⟨rfl, rfl⟩ := Ending.fault.inj (hend.symm.trans hfound)
    exact hcause
  · rintro ⟨hfirst, hother⟩
    cases hend : (Scan.of file source).ending with
    | eof t =>
      rw [firstUnmatched_of_eof hend] at hfirst
      cases hfirst
    | fault t fault =>
      obtain ⟨hbracket, hbefore⟩ := unmatched_of_fault hend
      have hcause := hother t fault hend (hbefore p c hfirst)
      have hplace := (hbracket c hcause).symm.trans hfirst
      refine ⟨t, fault, rfl, hcause, ?_⟩
      exact congrArg Prod.fst (Option.some.inj hplace)

/-- The tokens of a scan are those that the scanner gives one after another. Each bracket that they
close is the innermost open one, lines end and levels begin only outside brackets, and levels end
inside brackets only at the end of the source. A scan fails for an unmatched bracket just where the
source has the first one, if no other fault stands there or before. -/
theorem brackets_and_layout (file source : String) :
    (∀ n t, (Scan.of file source).all[n]? = some t →
      ((Lexer.start file source).after n).next.1 = t) ∧
    (∀ n t, (Scan.of file source).tokens[n]? = some t →
      ∃ opened, openAfter ((Scan.of file source).tokens.take n) = some opened ∧
        t.IsNested source opened) ∧
    (∀ p c, (∃ t fault, (Scan.of file source).ending = .fault t fault ∧
        fault.cause = .unmatchedClosing c ∧ t.offset = p) ↔
      firstUnmatched source = some (p, c) ∧
        ∀ t fault, (Scan.of file source).ending = .fault t fault → t.offset ≤ p →
          fault.cause = .unmatchedClosing c) ∧
    ∀ b : Bracket, (Cause.unmatchedClosing b.closing).message =
      "unmatched closing bracket '" ++ b.closing.toString ++ "'" := by
  refine ⟨fun n t => next_of_all, fun n t => isNested_of_mem, fault_iff_unmatched file source, ?_⟩
  intro b
  cases b <;> decide +kernel

end Scan
end Stencil
