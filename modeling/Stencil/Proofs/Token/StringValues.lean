import Stencil.Proofs.Token.Spelling

/-!
# Values of strings

The scanner finds the end of a string by the characters that lead clusters, and the value of its
literal is made character by character. The two agree as long as quotes and backslashes are clusters
of their own. A mark on the closing quote, a mark on a backslash or a backslash that is joined to
what stands before it makes a string whose literal may have no value.
-/
namespace Stencil

open Text (Cluster)
open List

/-! ## Which literals have a value -/

namespace Literal

/-- How many backslashes a text ends in, after a text that ends in a number of them. -/
def backslashes (before : Nat) (cs : List Char) : Nat :=
  cs.foldl (fun n c => if c = '\\' then n + 1 else 0) before

/-- The literal ends in the quote it starts with, and that quote is not escaped. -/
def isClosed (literal : String) : Bool :=
  match literal.toList with
  | [] => false
  | quote :: rest => rest.getLast? = some quote && backslashes 0 rest.dropLast % 2 = 0

-- The first quote at the end is escaped, the second is not.
example : isClosed "'a\\'" = false ∧ isClosed "'a\\\\'" = true := by decide

/-- Escapes are resolved unless a backslash is left over at the end. -/
theorem unescape_isSome (cs : List Char) {before : Nat} (h : before % 2 = 0) :
    (unescape cs).isSome = decide (backslashes before cs % 2 = 0) := by
  fun_induction unescape cs generalizing before with
  | case1 => rw [backslashes, foldl_nil, h]; rfl
  | case2 =>
    have hodd : ¬ (before + 1) % 2 = 0 := by omega
    exact (decide_eq_false hodd).symm
  | case3 c cs ih =>
    have hstep : backslashes before ('\\' :: c :: cs) =
        backslashes (if c = '\\' then before + 2 else 0) cs := rfl
    rw [Option.isSome_map, hstep]
    apply ih
    split <;> omega
  | case4 c cs hlast hescape ih =>
    have hc : c ≠ '\\' := by
      rintro rfl
      cases cs with
      | nil => exact hlast rfl rfl
      | cons d ds => exact hescape d ds rfl rfl
    have hstep : backslashes before (c :: cs) = backslashes 0 cs := by
      rw [backslashes, foldl_cons, if_neg hc]
      rfl
    rw [Option.isSome_map, hstep]
    exact ih rfl

/-- A literal between quotes has a value exactly if it is closed. -/
theorem value_ok_iff {literal : String} {quote : Char} {rest : List Char}
    (hliteral : literal.toList = quote :: rest) (hquote : quote = '"' ∨ quote = '\'')
    (hrest : rest ≠ []) : (∃ text, value literal = .ok text) ↔ isClosed literal := by
  have hsize : ¬ literal.utf8ByteSize < 2 := by
    obtain ⟨d, ds, rfl⟩ := exists_cons_of_ne_nil hrest
    have hfirst := quote.utf8Size_pos
    have hsecond := d.utf8Size_pos
    rw [← String.ofList_toList (s := literal), hliteral, Text.utf8ByteSize_ofList, Text.byteSize,
      Text.byteSize]
    omega
  have hmark : (quote = '"' || quote = '\'') := by simpa using hquote
  have hescapes := @unescape_isSome rest.dropLast 0 rfl
  rw [value, if_neg hsize, isClosed, hliteral]
  dsimp only
  rw [hmark, Bool.true_and, ← hescapes]
  by_cases hlast : rest.getLast? = some quote
  · rw [if_pos (decide_eq_true hlast), decide_eq_true hlast, Bool.true_and]
    cases unescape rest.dropLast with
    | some text => simp
    | none => simp
  · rw [if_neg (by simpa using hlast), decide_eq_false hlast]
    simp

theorem unescape_append_of_not_mem {cs : List Char} (h : '\\' ∉ cs) (rest : List Char) :
    unescape (cs ++ rest) = (unescape rest).map (cs ++ ·) := by
  induction cs with
  | nil => simp
  | cons c cs ih =>
    rw [mem_cons, not_or] at h
    have hstep : unescape (c :: (cs ++ rest)) = (unescape (cs ++ rest)).map (c :: ·) := by
      rw [unescape]
      · exact fun hc _ => h.1 hc.symm
      · exact fun _ _ hc _ => h.1 hc.symm
    rw [cons_append, hstep, ih h.2, Option.map_map]
    rfl

end Literal

/-! ## Strings of a source -/

/-- The characters that tell where a string ends. -/
def isLiteralMark (c : Char) : Bool := ['"', '\'', '\\'].contains c

/-- Quotes and backslashes are clusters of their own: there are no marks on them, and they are not
joined to what stands before them. -/
def marksStandAlone (ks : List Cluster) : Bool :=
  ks.all fun k => k.joined.isEmpty || !k.chars.any isLiteralMark

namespace Lexeme

variable {quote : Char} {k : Cluster} {ks : List Cluster}

/-- A cluster is one character or has no mark in it. -/
def StandsAlone (k : Cluster) : Prop := k.joined = [] ∨ ∀ c ∈ k.chars, isLiteralMark c = false

theorem marksStandAlone_iff : marksStandAlone ks ↔ ∀ k ∈ ks, StandsAlone k := by
  simp [marksStandAlone, StandsAlone]

theorem StandsAlone.chars_eq (h : StandsAlone k) {c : Char} (hc : isLiteralMark c)
    (hk : k.lead = c) : k.chars = [c] := by
  have hfirst : k.first = c := by
    rw [← hk, Cluster.lead_eq_first]
    rw [hk]
    rintro rfl
    cases hc
  rcases h with hjoined | hother
  · rw [Cluster.chars, hjoined, hfirst]
  · have hnone := hother k.first mem_cons_self
    rw [hfirst, hc] at hnone
    cases hnone

theorem StandsAlone.not_mem_joined (h : StandsAlone k) : '\\' ∉ k.joined := by
  intro hmem
  rcases h with hjoined | hother
  · rw [hjoined] at hmem
    cases hmem
  · exact absurd (hother _ (mem_cons_of_mem _ hmem)) (by decide)

theorem StandsAlone.not_mem_chars (h : StandsAlone k) (hk : k.lead ≠ '\\') : '\\' ∉ k.chars := by
  intro hmem
  rcases mem_cons.mp hmem with hfirst | hjoined
  · refine hk (Eq.trans (Cluster.lead_of_first ?_) hfirst.symm)
    rw [← hfirst]
    decide
  · exact h.not_mem_joined hjoined

/-- Where the scanner sees the end of a string there is its closing quote, and no backslash is left
over in front of it. -/
theorem unescape_stringRest (hquote : isLiteralMark quote) (hks : ∀ k ∈ ks, StandsAlone k)
    (h : stringRest quote ks = some ks.length) :
    ∃ body, ks.flatMap Cluster.chars = body ++ [quote] ∧ (Literal.unescape body).isSome := by
  have hends := EndsString.of_stringRest h
  clear h
  induction hends with
  | @mark k hk =>
    have hchars := (hks k mem_cons_self).chars_eq hquote hk
    exact ⟨[], by rw [flatMap_singleton, hchars]; rfl, rfl⟩
  | @escape k j ks hk hslash _ ih =>
    rw [forall_mem_cons, forall_mem_cons] at hks
    obtain ⟨body, hbody, hescapes⟩ := ih hks.2.2
    refine ⟨'\\' :: (j.chars ++ body), ?_, ?_⟩
    · rw [flatMap_cons, flatMap_cons, hbody, hks.1.chars_eq (by decide) hslash]
      simp
    · -- The backslash takes the first character of the next cluster, and the others stay.
      change (Literal.unescape ('\\' :: j.first :: (j.joined ++ body))).isSome = true
      rw [Literal.unescape, Option.isSome_map,
        Literal.unescape_append_of_not_mem hks.2.1.not_mem_joined, Option.isSome_map, hescapes]
  | @other k ks hk hslash _ ih =>
    rw [forall_mem_cons] at hks
    obtain ⟨body, hbody, hescapes⟩ := ih hks.2
    refine ⟨k.chars ++ body, by rw [flatMap_cons, hbody, append_assoc], ?_⟩
    rw [Literal.unescape_append_of_not_mem (hks.1.not_mem_chars hslash), Option.isSome_map, hescapes]

end Lexeme

namespace Token

variable {source : String} {t : Token}

/-- What the literal of a string is made of. -/
theorem SpelledIn.of_string (h : t.SpelledIn (Cluster.segment source)) (hkind : t.kind = .string) :
    ∃ k ks, k :: ks <:+: Cluster.segment source ∧ t.literal = Cluster.text (k :: ks) ∧
      (k.lead = '"' ∨ k.lead = '\'') ∧ k.first = k.lead ∧
      Lexeme.stringRest k.lead ks = some ks.length := by
  have hspelled : t.kind.isSpelled := by rw [hkind]; rfl
  obtain ⟨ks, hks, hliteral, hspells⟩ := h.literal hspelled
  generalize t.kind = kind at hkind hspelled hspells
  cases hspells with
  | word =>
    rw [TokenKind.ofWord] at hkind
    split at hkind <;> cases hkind
  | styleWord | number => cases hkind
  | @string k ks hquote hrest =>
    have hfeed : k.lead ≠ '\n' := by
      rcases hquote with h | h <;> rw [h] <;> decide
    exact ⟨k, ks, hks, hliteral, hquote, (Cluster.lead_eq_first hfeed).symm, hrest⟩
  | sign hsign =>
    rcases operator_cases hsign hspelled with ⟨-, rfl⟩ | ⟨-, rfl⟩ <;> cases hkind

/-- The literal of a string has a value exactly if it is closed. -/
theorem SpelledIn.value_ok_iff (h : t.SpelledIn (Cluster.segment source))
    (hkind : t.kind = .string) :
    (∃ text, Literal.value t.literal = .ok text) ↔ Literal.isClosed t.literal := by
  obtain ⟨k, ks, -, hliteral, hquote, hfirst, hrest⟩ := h.of_string hkind
  have htext : t.literal.toList = k.first :: (k.joined ++ ks.flatMap Cluster.chars) := by
    rw [hliteral, Cluster.text, String.toList_ofList, flatMap_cons]
    rfl
  refine Literal.value_ok_iff htext (by rwa [hfirst]) ?_
  cases ks with
  | nil => cases hrest
  | cons j js => simp [Cluster.chars]

/-- Where quotes and backslashes stand alone, every string has a value. -/
theorem SpelledIn.exists_value (h : t.SpelledIn (Cluster.segment source)) (hkind : t.kind = .string)
    (halone : marksStandAlone (Cluster.segment source)) :
    ∃ text, Literal.value t.literal = .ok text := by
  rw [h.value_ok_iff hkind]
  obtain ⟨k, ks, hks, hliteral, hquote, hfirst, hrest⟩ := h.of_string hkind
  have hmark : isLiteralMark k.lead := by
    rcases hquote with h | h <;> rw [h] <;> rfl
  have hall := Lexeme.marksStandAlone_iff.mp halone
  obtain ⟨body, hbody, hescapes⟩ := Lexeme.unescape_stringRest hmark
    (fun j hj => hall j (hks.subset (mem_cons_of_mem _ hj))) hrest
  have hchars := (hall k (hks.subset mem_cons_self)).chars_eq hmark rfl
  rw [@Literal.unescape_isSome body 0 rfl, decide_eq_true_eq] at hescapes
  rw [Literal.isClosed, hliteral, Cluster.text, String.toList_ofList, flatMap_cons, hchars,
    hbody, singleton_append]
  simp [hescapes]

end Token
end Stencil
