import Mathlib.Data.List.Forall2
import Mathlib.Order.Monotone.Basic
import Stencil.Proofs.Token.Nesting

/-!
# Two scanners side by side

A scanner does the same on other clusters if it cannot tell them apart. Within a line they have to be
the same; of line breaks it matters only that they are some, and of margins only how they compare with
each other. Which places correspond to each other, and what is to be known of the tokens and faults
there, is put together in a twin. That two scanners come to the same is proved once for all twins.
-/
namespace Stencil

open Text (Cluster isLetter isDigit)
open List Lexeme

/-! ## Up to a line break -/

namespace Lexeme

variable {ks ks' : List Cluster} {k : Cluster} {kind : TokenKind} {length : Nat}

theorem number_le (ks : List Cluster) : number ks ≤ ks.length := by
  induction ks with
  | nil => exact Nat.le_refl 0
  | cons k ks ih =>
    rw [number, length_cons]
    split <;> omega

theorem run_le (part : Char → Bool) (ks : List Cluster) : run part ks ≤ ks.length :=
  ( takeWhile_prefix _).length_le

/-- A sign of two characters needs the second. -/
theorem operator_le {c : Char} (h : operator c (ks.head?.map (·.first)) = some (kind, length)) :
    length ≤ ks.length + 1 := by
  rcases operator_isInert h with ⟨-, rfl | ⟨rfl, d, hd, -⟩⟩
  · omega
  · cases ks with
    | nil => cases hd
    | cons k ks => simp

/-- No sign has a line break in it. -/
theorem operator_of_break (c : Char) {d : Char} (h : d = '\n' ∨ d = '\r') :
    operator c (some d) = operator c none := by
  unfold operator
  rcases h with rfl | rfl <;> dsimp only <;> split <;> rfl

theorem lead_of_mem_sign (hk : k.lead ≠ '\n')
    (h : operator k.lead (ks.head?.map (·.first)) = some (kind, length)) :
    ∀ j ∈ (k :: ks).take length, j.lead ≠ '\n' := by
  rcases operator_isInert h with ⟨-, rfl | ⟨rfl, d, hd, -⟩⟩
  · simpa using hk
  · cases ks with
    | nil => cases hd
    | cons j ks =>
      have hj : j.lead ≠ '\n' := by
        intro hj
        rw [head?_cons, Option.map_some, operator_of_break _ (Cluster.first_of_lead hj)] at h
        rcases operator_isInert h with ⟨-, hone | ⟨-, d, hd, -⟩⟩
        · cases hone
        · cases hd
      simp [hk, hj]

/-- The same clusters up to the next line break. -/
inductive Abreast : List Cluster → List Cluster → Prop where
  | nil : Abreast [] []
  | line {k k' : Cluster} (hk : k.lead = '\n') (hk' : k'.lead = '\n') (ks ks' : List Cluster) :
      Abreast (k :: ks) (k' :: ks')
  | cons {k : Cluster} {ks ks' : List Cluster} (hk : k.lead ≠ '\n') (h : Abreast ks ks') :
      Abreast (k :: ks) (k :: ks')

namespace Abreast

theorem eq_nil (h : Abreast [] ks') : ks' = [] := by
  cases h
  rfl

theorem ne_nil (h : Abreast ks ks') (hne : ks ≠ []) : ks' ≠ [] := by
  cases h with
  | nil => exact hne
  | line | cons => exact cons_ne_nil _ _

theorem exists_line (h : Abreast (k :: ks) ks') (hk : k.lead = '\n') :
    ∃ k' rest', ks' = k' :: rest' ∧ k'.lead = '\n' := by
  cases h with
  | line _ hk' => exact ⟨_, _, rfl, hk'⟩
  | cons hne => exact absurd hk hne

theorem exists_cons (h : Abreast (k :: ks) ks') (hk : k.lead ≠ '\n') :
    ∃ rest', ks' = k :: rest' ∧ Abreast ks rest' := by
  cases h with
  | line hline => exact absurd hline hk
  | cons _ hlater => exact ⟨_, rfl, hlater⟩

theorem takeWhile_eq {part : Cluster → Bool} (h : Abreast ks ks')
    (hpart : ∀ k : Cluster, k.lead = '\n' → part k = false) :
    ks'.takeWhile part = ks.takeWhile part := by
  induction h with
  | nil => rfl
  | line hk hk' =>
    rw [takeWhile_cons_of_neg (by simp [hpart _ hk']), takeWhile_cons_of_neg (by simp [hpart _ hk])]
  | cons hk _ ih => rw [takeWhile_cons, takeWhile_cons, ih]

theorem run_eq {part : Char → Bool} (h : Abreast ks ks') (hpart : part '\n' = false) :
    run part ks' = run part ks := by
  rw [run, run, h.takeWhile_eq fun k hk => by rw [hk, hpart]]

theorem margin_eq (h : Abreast ks ks') : margin ks' = margin ks := by
  have hbreak : ∀ {k : Cluster} (ks : List Cluster), k.lead = '\n' →
      margin (k :: ks) = (0, some '\n') := by
    intro k ks hk
    rcases Cluster.first_of_lead hk with hfirst | hfirst <;> simp [margin, hfirst, hk]
  induction h with
  | nil => rfl
  | line hk hk' => rw [hbreak _ hk, hbreak _ hk']
  | cons hk _ ih => rw [margin, margin, ih]

theorem number_eq (h : Abreast ks ks') : number ks' = number ks := by
  have hbreak : ∀ {k : Cluster}, k.lead = '\n' → isDigit k.first = false := by
    intro k hk
    rcases Cluster.first_of_lead hk with hfirst | hfirst <;> rw [hfirst] <;> rfl
  have hnone : ∀ {k : Cluster} (ks : List Cluster), k.lead = '\n' → number (k :: ks) = 0 := by
    intro k ks hk
    rw [number, hk]
    rfl
  induction h with
  | nil => rfl
  | line hk hk' => rw [hnone _ hk, hnone _ hk']
  | @cons k ks ks' hk h ih =>
    have hhead : (ks'.head?.any fun k => isDigit k.first) =
        ks.head?.any fun k => isDigit k.first := by
      cases h with
      | nil | cons => rfl
      | line hk hk' => simp [hbreak hk, hbreak hk']
    rw [number, number, hhead, ih]

theorem operator_eq (h : Abreast ks ks') (c : Char) :
    operator c (ks'.head?.map (·.first)) = operator c (ks.head?.map (·.first)) := by
  cases h with
  | nil | cons => rfl
  | line hk hk' =>
    rw [head?_cons, head?_cons, Option.map_some, Option.map_some,
      operator_of_break c (Cluster.first_of_lead hk),
      operator_of_break c (Cluster.first_of_lead hk')]

theorem take_eq (h : Abreast ks ks') {n : Nat} (hlead : ∀ k ∈ ks.take n, k.lead ≠ '\n') :
    ks'.take n = ks.take n := by
  induction h generalizing n with
  | nil => rfl
  | line hk =>
    cases n with
    | zero => rfl
    | succ n => exact absurd hk (hlead _ (by simp))
  | cons hk _ ih =>
    cases n with
    | zero => rfl
    | succ n =>
      rw [take_succ_cons, take_succ_cons, ih]
      exact fun k hk => hlead k (by simp [hk])

end Abreast
end Lexeme

/-! ## Twins -/

def Cursor.token (c : Cursor) (kind : TokenKind) (literal : String) : Token :=
  ⟨kind, literal, c.line, c.column, c.offset⟩

/-- How two scanners correspond. -/
structure Pairing where
  /-- The same place, where some brackets are open. -/
  place : List Bracket → Cursor → Cursor → Prop
  /-- The same place, in front of a token. -/
  front : List Bracket → Cursor → Cursor → Prop
  /-- The margin that stands for a margin. -/
  levels : Nat → Nat
  token : Token → Token → Prop
  fault : Fault → Fault → Prop
  /-- Nothing is said of these faults. -/
  ignores : Cause → Prop

/-- What two places have to have in common for the scanners to come to the same. -/
structure Pairing.Lawful (w : Pairing) : Prop where
  mono : StrictMono w.levels
  zero : w.levels 0 = 0
  known : (∀ cause, w.ignores cause) ∨ w.levels = id
  kind : ∀ {t t'}, w.token t t' → t'.kind = t.kind
  column : ∀ {b c c'}, w.place b c c' → decide (c'.column = 1) = decide (c.column = 1)
  here : ∀ {b c c' kind literal}, w.place b c c' → isNamePiece (c.token kind literal) = false →
    w.token (c.token kind literal) (c'.token kind literal)
  pending : ∀ {c c' : Cursor} (width : Nat), w.place [] c c' →
    w.token ⟨.dedent, "", c.line, width + 1, c.offset + width⟩
      ⟨.dedent, "", c'.line, w.levels width + 1, c'.offset + w.levels width⟩
  faults : ∀ {b c c'} (file : String) (cause : Cause), w.place b c c' → w.ignores cause ∨
    w.fault ⟨⟨file, c.line, c.column⟩, cause⟩ ⟨⟨file, c'.line, c'.column⟩, cause⟩
  place_of_front : ∀ {b c c'}, w.front b c c' → w.place b c c'
  abreast : ∀ {b c c'}, w.front b c c' → Lexeme.Abreast c.rest c'.rest
  skip : ∀ {b later c c' n}, w.front b c c' → n ≤ c.rest.length →
    (∀ k ∈ (c.rest.take n).dropLast, k.lead ≠ '\n') →
    Nesting.after ⟨b, .plain⟩ (c.rest.take n) = some ⟨later, .plain⟩ →
    w.place later (c.skip n) (c'.skip n)
  text : ∀ {b c c' n} (kind : TokenKind), w.front b c c' → c'.rest.take n = c.rest.take n →
    w.token (c.token kind (Cluster.text (c.rest.take n)))
      (c'.token kind (Cluster.text (c.rest.take n)))
  newline : ∀ {b c c' k rest}, w.front b c c' → c.rest = k :: rest → k.lead = '\n' →
    w.token (c.token .newline (Cluster.text (c.rest.take 1)))
      (c'.token .newline (Cluster.text (c'.rest.take 1)))
  string : ∀ {b c c' k rest n}, w.front b c c' → c.rest = k :: rest →
    k.lead = '"' ∨ k.lead = '\'' → Lexeme.stringRest k.lead rest = some n →
    Lexeme.stringRest k.lead c'.rest.tail = some n ∧ w.place b (c.skip (n + 1)) (c'.skip (n + 1)) ∧
      w.token (c.token .string (Cluster.text (c.rest.take (n + 1))))
        (c'.token .string (Cluster.text (c'.rest.take (n + 1))))
  unterminated : ∀ {b c c' k rest}, w.front b c c' → c.rest = k :: rest →
    Lexeme.stringRest k.lead rest = none → w.ignores .unterminatedString ∨
      (Lexeme.stringRest k.lead c'.rest.tail = none ∧
        w.token (c.token .error (Cluster.text c.rest)) (c'.token .error (Cluster.text c'.rest)))

structure Twin extends Pairing where
  laws : toPairing.Lawful

namespace Twin

open Lexer (isLayout)

variable {w : Twin} {l m : Lexer} {c' : Cursor} {k : Cluster} {rest : List Cluster}
  {result : Lexer.Scanned}

/-- The scanner at another place. -/
def twin (w : Twin) (l : Lexer) (c' : Cursor) : Lexer :=
  { l with cursor := c', indents := l.indents.map w.levels }

/-- What the two scanners come to. -/
inductive Comes (w : Twin) : Lexer.Scanned → Lexer.Scanned → Prop where
  | ok {t t' : Token} {m : Lexer} {c' : Cursor} (htoken : w.token t t')
      (hplace : w.place m.brackets m.cursor c') : Comes w (.ok (t, m)) (.ok (t', w.twin m c'))
  | error {t t' : Token} {f f' : Fault} {m m' : Lexer} (htoken : w.token t t')
      (hfault : w.fault f f') : Comes w (.error ((t, f), m)) (.error ((t', f'), m'))
  | ignored {t : Token} {f : Fault} {m : Lexer} {result : Lexer.Scanned}
      (h : w.ignores f.cause) : Comes w (.error ((t, f), m)) result

theorem comes_fail (hplace : w.place l.brackets l.cursor c') (cause : Cause) {n : Nat}
    (htake : c'.rest.take n = l.cursor.rest.take n) :
    w.Comes (l.fail cause n) ((w.twin l c').fail cause n) := by
  rcases w.laws.faults l.file cause hplace with hignored | hfault
  · exact .ignored hignored
  · have hfail : (w.twin l c').fail cause n = .error ((c'.token .error
        (Cluster.text (l.cursor.rest.take n)), ⟨⟨l.file, c'.line, c'.column⟩, cause⟩),
          { w.twin l c' with cursor := c'.skip n }) := by
      rw [← htake]
      rfl
    rw [hfail]
    exact .error (w.laws.here hplace rfl) hfault

section Front

variable (h : w.front l.brackets l.cursor c')

include h

/-- Clusters of a token within a line. -/
theorem comes_take {n : Nat} (kind : TokenKind) (hle : n ≤ l.cursor.rest.length)
    (hline : ∀ k ∈ l.cursor.rest.take n, k.lead ≠ '\n')
    (hinert : ∀ k ∈ l.cursor.rest.take n, isInert k.lead) :
    w.Comes (.ok (l.take kind n)) (.ok ((w.twin l c').take kind n)) := by
  have htake := (w.laws.abreast h).take_eq hline
  have hplace := w.laws.skip h hle (fun k hk => hline k (List.mem_of_mem_dropLast hk))
    (Nesting.after_inert hinert _)
  have hpair : (w.twin l c').take kind n = (c'.token kind (Cluster.text (l.cursor.rest.take n)),
      w.twin (l.take kind n).2 (c'.skip n)) := by
    rw [← htake]
    rfl
  rw [hpair]
  exact .ok (w.laws.text kind h htake) hplace

theorem comes_run {part : Char → Bool} (kind : TokenKind)
    (hother : ['(', ')', '[', ']', '{', '}', '#', '"', '\''].any part = false)
    (hpart : part '\n' = false) :
    w.Comes (.ok (l.take kind (Lexeme.run part l.cursor.rest)))
      (.ok ((w.twin l c').take kind (Lexeme.run part c'.rest))) := by
  rw [(w.laws.abreast h).run_eq hpart]
  refine comes_take h kind (run_le _ _) (fun k hk hline => ?_) (isInert_run hother)
  have htrue := mem_take_run hk
  rw [hline, hpart] at htrue
  cases htrue

theorem comes_word : w.Comes (.ok l.word) (.ok (w.twin l c').word) := by
  have hcomes : ∀ mode kind, w.Comes
      (.ok (Lexer.take { l with mode := mode } kind (Lexeme.run isNamePart l.cursor.rest)))
      (.ok (Lexer.take { w.twin l c' with mode := mode } kind
        (Lexeme.run isNamePart (w.twin l c').cursor.rest))) :=
    fun mode kind => comes_run (l := { l with mode := mode }) h kind (by decide) (by decide)
  -- The same text is the same keyword, if it is one.
  have htext : (w.twin l c').cursor.rest.take
        (Lexeme.run isNamePart (w.twin l c').cursor.rest) =
      l.cursor.rest.take (Lexeme.run isNamePart l.cursor.rest) := by
    change c'.rest.take (Lexeme.run isNamePart c'.rest) = _
    rw [(w.laws.abreast h).run_eq (by decide)]
    refine (w.laws.abreast h).take_eq fun k hk hline => ?_
    have htrue := mem_take_run hk
    rw [hline] at htrue
    exact absurd htrue (by decide)
  have hcolumn : decide ((w.twin l c').cursor.column = 1) = decide (l.cursor.column = 1) :=
    w.laws.column (w.laws.place_of_front h)
  have hmode : (w.twin l c').mode = l.mode := rfl
  generalize w.twin l c' = l' at *
  unfold Lexer.word
  dsimp only
  rw [htext, hcolumn, hmode]
  exact hcomes _ _

/-- A bracket changes what is open in the same way. -/
theorem comes_bracket {kind : TokenKind} {literal : String}
    (hkind : isNamePiece (l.token kind literal) = false) {opened : List Bracket}
    (hrest : l.cursor.rest = k :: rest)
    (hnext : Nesting.next ⟨l.brackets, .plain⟩ k = some ⟨opened, .plain⟩) :
    w.Comes (.ok (l.token kind literal, { l with cursor := l.cursor.step, brackets := opened }))
      (.ok (c'.token kind literal,
        { w.twin l c' with cursor := c'.step, brackets := opened })) := by
  have hplace : w.place opened (l.cursor.skip 1) (c'.skip 1) := by
    refine w.laws.skip h (by rw [hrest]; exact Nat.succ_pos _) (by rw [hrest]; simp) ?_
    rw [hrest]
    exact Nesting.after_cons hnext []
  exact .ok (m := { l with cursor := l.cursor.step, brackets := opened })
    (w.laws.here (w.laws.place_of_front h) hkind) hplace

theorem takes {rest' : List Cluster} (hrest : l.cursor.rest = k :: rest)
    (hrest' : c'.rest = k :: rest') (habreast : Lexeme.Abreast rest rest') (hk : k.lead ≠ '\n')
    (htakes : l.Takes k rest result) :
    ∃ result', (w.twin l c').Takes k rest' result' ∧ w.Comes result result' := by
  have hplace := w.laws.place_of_front h
  have hfirst : c'.rest.take 1 = l.cursor.rest.take 1 := by rw [hrest, hrest']; rfl
  have hheading : (w.twin l c').headingMode k.lead = l.headingMode k.lead := by
    have hcolumn := w.laws.column hplace
    change (if (decide (c'.column = 1) && _) = true then _ else l.mode) = _
    rw [hcolumn]
    rfl
  cases htakes with
  | @string n hquote hlength =>
    obtain ⟨hlength', hnext, htoken⟩ := w.laws.string h hrest hquote hlength
    rw [hrest'] at hlength'
    exact ⟨_, .string hquote hlength', .ok (m := (l.take .string (n + 1)).2) htoken hnext⟩
  | unterminated hquote hnone =>
    rcases w.laws.unterminated h hrest hnone with hignored | ⟨hnone', htoken⟩
    · cases hlength : stringRest k.lead rest' with
      | some n => exact ⟨_, .string hquote hlength, .ignored hignored⟩
      | none => exact ⟨_, .unterminated hquote hlength, .ignored hignored⟩
    · rw [hrest'] at hnone'
      refine ⟨_, .unterminated hquote hnone', ?_⟩
      rcases w.laws.faults l.file .unterminatedString hplace with hignored | hfault
      · exact .ignored hignored
      · have hall : l.cursor.rest.take (rest.length + 1) = l.cursor.rest := by
          rw [hrest]
          exact take_length (l := k :: rest)
        have hall' : c'.rest.take (rest'.length + 1) = c'.rest := by
          rw [hrest']
          exact take_length (l := k :: rest')
        rw [← hall, ← hall'] at htoken
        exact .error htoken hfault
  | opening hb =>
    exact ⟨_, .opening hb, comes_bracket h rfl hrest (Nesting.next_of_opening hb _)⟩
  | closing hb hbrackets =>
    refine ⟨_, .closing hb hbrackets, comes_bracket h rfl hrest ?_⟩
    rw [hbrackets]
    exact Nesting.next_of_closing hb _
  | unmatched hb hbrackets => exact ⟨_, .unmatched hb hbrackets, comes_fail hplace _ hfirst⟩
  | styleWord hstart hmode =>
    exact ⟨_, .styleWord hstart (hheading.trans hmode), comes_run h _ (by decide) (by decide)⟩
  | word hletter hmode =>
    exact ⟨_, .word hletter (hheading.trans hmode),
      comes_word (l := { l with mode := .plain }) h⟩
  | number hdigit hmode =>
    refine ⟨_, .number hdigit hmode, ?_⟩
    rw [show (w.twin l c').cursor = c' from rfl, (w.laws.abreast h).number_eq]
    refine comes_take h _ (number_le _) (fun j hj hline => ?_) isInert_number
    have hpart := mem_take_number hj
    rw [hline] at hpart
    revert hpart
    decide
  | @sign kind n hmode hsign =>
    refine ⟨_, .sign hmode ((habreast.operator_eq _).trans hsign), comes_take h _ ?_ ?_ ?_⟩
    · rw [hrest]
      exact operator_le hsign
    · rw [hrest]
      exact lead_of_mem_sign hk hsign
    · rw [hrest]
      exact isInert_operator hsign
  | unexpected hquote hopening hclosing hstart hsign =>
    exact ⟨_, .unexpected hquote hopening hclosing hstart ((habreast.operator_eq _).trans hsign),
      comes_fail hplace _ rfl⟩

theorem gives (hgives : l.Gives result) :
    ∃ result', (w.twin l c').Gives result' ∧ w.Comes result result' := by
  have hplace := w.laws.place_of_front h
  have habreast := w.laws.abreast h
  have hempty (hrest : l.cursor.rest = []) : c'.rest = [] := (hrest ▸ habreast).eq_nil
  cases hgives with
  | lastLine hrest hbrackets hlast =>
    exact ⟨_, .lastLine (hempty hrest) hbrackets hlast, .ok (w.laws.here hplace rfl) hplace⟩
  | @lastLevel level outer levels hrest hlast hindents =>
    have hindents' : (w.twin l c').indents =
        w.levels level :: w.levels outer :: levels.map w.levels := by
      rw [twin, hindents]
      rfl
    exact ⟨_, .lastLevel (hempty hrest) hlast hindents',
      .ok (m := { l with indents := outer :: levels }) (w.laws.here hplace rfl) hplace⟩
  | eof hrest hlast hindents =>
    refine ⟨_, .eof (hempty hrest) hlast ?_, .ok (w.laws.here hplace rfl) hplace⟩
    exact (length_map _).trans_le hindents
  | @newline k rest hrest hk hbrackets =>
    obtain ⟨k', rest', hrest', hk'⟩ := (hrest ▸ habreast).exists_line hk
    have hnext : w.place l.brackets (l.cursor.skip 1) (c'.skip 1) := by
      refine w.laws.skip h (by rw [hrest]; exact Nat.succ_pos _) (by rw [hrest]; simp) ?_
      exact Nesting.after_inert (by simp [hrest, hk, isInert]) _
    exact ⟨_, .newline hrest' hk' hbrackets,
      .ok (m := (l.take .newline 1).2) (w.laws.newline h hrest hk) hnext⟩
  | @cluster k rest _ hrest hk htakes =>
    obtain ⟨rest', hrest', hlater⟩ := (hrest ▸ habreast).exists_cons hk
    obtain ⟨result', htakes', hcomes⟩ := takes h hrest hrest' hlater hk htakes
    exact ⟨result', .cluster hrest' hk htakes', hcomes⟩

end Front

/-- The same gap in front of a token. -/
structure Meets (w : Twin) (opened : List Bracket) (c c' : Cursor) : Prop where
  gap : Lexeme.gap (!opened.isEmpty) c'.rest = Lexeme.gap (!opened.isEmpty) c.rest
  front : w.front opened (c.skip (Lexeme.gap (!opened.isEmpty) c.rest))
    (c'.skip (Lexeme.gap (!opened.isEmpty) c.rest))

/-- The start of a line, with the margin that stands for its margin. -/
structure Starts (w : Twin) (c c' : Cursor) : Prop where
  rest : c'.rest ≠ []
  place : w.place [] c c'
  margin : Lexeme.margin c'.rest = (w.levels (Lexeme.margin c.rest).1, (Lexeme.margin c.rest).2)
  inside : w.place [] c.skipSpaces c'.skipSpaces
  meets : w.Meets [] c.skipSpaces c'.skipSpaces

/-- Places from where the scanners come to the same. -/
structure Ready (w : Twin) (l : Lexer) (c' : Cursor) : Prop where
  place : w.place l.brackets l.cursor c'
  inside : ¬(l.cursor.column = 1 ∧ l.brackets = []) → w.Meets l.brackets l.cursor c'
  blank : l.cursor.column = 1 → l.brackets = [] →
    Lexeme.blankLines c'.rest = Lexeme.blankLines l.cursor.rest
  ending : l.cursor.column = 1 → l.brackets = [] → l.pastBlank.cursor.rest = [] →
    w.front [] l.pastBlank.cursor (c'.skip (Lexeme.blankLines l.cursor.rest))
  line : l.StartsLine → w.Starts l.pastBlank.cursor (c'.skip (Lexeme.blankLines l.cursor.rest))

theorem headD_levels (w : Twin) (indents : List Nat) :
    (indents.map w.levels).headD 0 = w.levels (indents.headD 0) := by
  cases indents with
  | nil => exact w.laws.zero.symm
  | cons level indents => rfl

theorem Meets.pastGap (h : w.Meets l.brackets l.cursor c') :
    (w.twin l c').pastGap =
      w.twin l.pastGap (c'.skip (Lexeme.gap (!l.brackets.isEmpty) l.cursor.rest)) := by
  rw [← h.gap]
  rfl

/-- The margins stand to the levels in the same way. -/
theorem Starts.lays (h : w.Starts l.cursor c') (hnone : l.brackets = []) (hlays : l.Lays result) :
    ∃ result', (w.twin l c').Lays result' ∧ w.Comes result result' := by
  have hplace := h.place
  have hinside := h.inside
  rw [← hnone] at hinside
  have hmargin : Lexeme.margin (w.twin l c').cursor.rest =
      (w.levels (Lexeme.margin l.cursor.rest).1, (Lexeme.margin l.cursor.rest).2) := h.margin
  have hwidth : (Lexeme.margin (w.twin l c').cursor.rest).1 =
      w.levels (Lexeme.margin l.cursor.rest).1 := by rw [hmargin]
  have hnext : (Lexeme.margin (w.twin l c').cursor.rest).2 = (Lexeme.margin l.cursor.rest).2 := by
    rw [hmargin]
  have htop : (w.twin l c').indents.headD 0 = w.levels (l.indents.headD 0) := headD_levels w _
  have houter' : (w.twin l c').indents.tail.headD 0 = w.levels (l.indents.tail.headD 0) := by
    rw [← headD_levels, map_tail]
    rfl
  have htail : (w.twin l c').indents.tail = l.indents.tail.map w.levels := map_tail.symm
  have hpair : ∀ {kind : TokenKind} {indents : List Nat},
      isNamePiece (l.pastMargin.token kind "") = false →
      w.Comes (.ok (l.pastMargin.token kind "", { l.pastMargin with indents := indents }))
        (.ok (c'.skipSpaces.token kind "",
          w.twin { l.pastMargin with indents := indents } c'.skipSpaces)) :=
    fun hkind => .ok (w.laws.here hinside hkind) hinside
  cases hlays with
  | tab htab =>
    exact ⟨_, .tab (hnext.trans htab), comes_fail (l := l.pastMargin) hinside _ rfl⟩
  | indent htab hdeeper =>
    refine ⟨_, .indent (hnext ▸ htab) (by rw [htop, hwidth]; exact w.laws.mono hdeeper), ?_⟩
    rw [hwidth]
    exact hpair rfl
  | uneven htab hlower houter =>
    refine ⟨_, .uneven (hnext ▸ htab) (by rw [htop, hwidth]; exact w.laws.mono hlower)
      (by rw [houter', hwidth]; exact w.laws.mono houter), ?_⟩
    rcases w.laws.known with hall | hid
    · exact .ignored (hall _)
    · have hsame : w.levels (Lexeme.margin l.cursor.rest).1 = (Lexeme.margin l.cursor.rest).1 := by
        rw [hid]
        rfl
      rw [hwidth, htail, hsame]
      exact comes_fail (l := { l.pastMargin with indents := l.indents.tail }) hinside _ rfl
  | dedent htab hlower houter =>
    refine ⟨_, .dedent (hnext ▸ htab) (by rw [htop, hwidth]; exact w.laws.mono hlower)
      (by rw [houter', hwidth, houter]), ?_⟩
    rw [htail]
    exact hpair rfl
  | pending htab hlower houter =>
    refine ⟨_, .pending (hnext ▸ htab) (by rw [htop, hwidth]; exact w.laws.mono hlower)
      (by rw [houter', hwidth]; exact w.laws.mono houter), ?_⟩
    rw [hwidth, htail]
    exact .ok (m := { l with indents := l.indents.tail }) (w.laws.pending _ hplace) (hnone ▸ hplace)

theorem Ready.pastBlank (h : w.Ready l c') (hcolumn : l.cursor.column = 1)
    (hbrackets : l.brackets = []) : (w.twin l c').pastBlank =
      w.twin l.pastBlank (c'.skip (blankLines l.cursor.rest)) := by
  rw [← h.blank hcolumn hbrackets]
  rfl

theorem Ready.startsLine (h : w.Ready l c') (hstart : l.StartsLine) : (w.twin l c').StartsLine where
  column := by
    have hcolumn := w.laws.column h.place
    rw [hstart.column] at hcolumn
    exact of_decide_eq_true hcolumn
  brackets := hstart.brackets
  rest := by
    rw [h.pastBlank hstart.column hstart.brackets]
    exact (h.line hstart).rest

theorem Ready.comes (h : w.Ready l c') (hcomes : l.Comes m) :
    ∃ c'', w.front m.brackets m.cursor c'' ∧ (w.twin l c').Comes (w.twin m c'') := by
  have hcolumn := w.laws.column h.place
  rw [decide_eq_decide] at hcolumn
  cases hcomes with
  | inside hinside =>
    have hmeets := h.inside hinside
    refine ⟨_, hmeets.front, ?_⟩
    rw [← hmeets.pastGap]
    exact .inside fun hstart => hinside ⟨hcolumn.mp hstart.1, hstart.2⟩
  | ending hstart hbrackets hrest =>
    have hfront := h.ending hstart hbrackets hrest
    have hrest' := (hrest ▸ w.laws.abreast hfront).eq_nil
    refine ⟨_, hbrackets ▸ hfront, ?_⟩
    rw [← h.pastBlank hstart hbrackets]
    refine .ending (hcolumn.mpr hstart) hbrackets ?_
    rw [h.pastBlank hstart hbrackets]
    exact hrest'
  | line hstart htab hwidth =>
    have hline := h.line hstart
    have hnone : l.pastBlank.pastMargin.brackets = [] := hstart.brackets
    have hmeets : w.Meets l.pastBlank.pastMargin.brackets l.pastBlank.pastMargin.cursor _ :=
      hnone ▸ hline.meets
    have hpast := h.pastBlank hstart.column hstart.brackets
    have hspaces : (w.twin l c').pastBlank.pastMargin = w.twin l.pastBlank.pastMargin
        (c'.skip (blankLines l.cursor.rest)).skipSpaces := by
      rw [hpast]
      rfl
    refine ⟨_, hmeets.front, ?_⟩
    rw [← hmeets.pastGap, ← hspaces]
    have hmargin : margin (w.twin l c').pastBlank.cursor.rest = _ :=
      (congrArg (margin ·.cursor.rest) hpast).trans hline.margin
    refine .line (h.startsLine hstart) (by rw [hmargin]; exact htab) ?_
    rw [hmargin]
    exact (congrArg w.levels hwidth).trans (headD_levels w _).symm

theorem branches (h : w.Ready l c') (hbranches : l.Branches result) :
    ∃ result', (w.twin l c').Branches result' ∧ w.Comes result result' := by
  cases hbranches with
  | gives hcomes hgives =>
    obtain ⟨c'', hfront, hcomes'⟩ := h.comes hcomes
    obtain ⟨result', hgives', hresult⟩ := gives hfront hgives
    exact ⟨result', .gives hcomes' hgives', hresult⟩
  | lays hstart hlays =>
    obtain ⟨result', hlays', hresult⟩ := (h.line hstart).lays hstart.brackets hlays
    rw [← h.pastBlank hstart.column hstart.brackets] at hlays'
    exact ⟨result', .lays (h.startsLine hstart) hlays', hresult⟩

/-- Two scanners at such places come to the same. -/
theorem scan (h : w.Ready l c') : w.Comes l.scan (w.twin l c').scan := by
  obtain ⟨result', hbranches, hresult⟩ := branches h l.scan_branches
  rwa [hbranches.scan_eq]

/-! ## Whole scans -/

/-- Scans of twins, one token after the other and at the end. -/
structure Agrees (w : Twin) (scan scan' : Scan) : Prop where
  tokens : List.Forall₂ w.token scan.tokens scan'.tokens
  ending : (∃ t t', scan.ending = .eof t ∧ scan'.ending = .eof t' ∧ w.token t t') ∨
    ∃ t t' f f', scan.ending = .fault t f ∧ scan'.ending = .fault t' f' ∧ w.token t t' ∧ w.fault f f'

variable {ts : List Token} {scan : Scan}
  (hready : ∀ {l : Lexer} {c' : Cursor}, w.place l.brackets l.cursor c' → w.Ready l c')
  (h : w.place l.brackets l.cursor c')

include hready h

theorem trace (htrace : l.Trace ts m) :
    ∃ ts' c'', (w.twin l c').Trace ts' (w.twin m c'') ∧ List.Forall₂ w.token ts ts' ∧
      w.place m.brackets m.cursor c'' := by
  induction htrace generalizing c' with
  | refl => exact ⟨[], c', .refl _, .nil, h⟩
  | @step l m n t ts hl hscan hkind _ ih =>
    have hcomes := Twin.scan (hready h)
    rw [hscan] at hcomes
    generalize hscan' : (w.twin l c').scan = result at hcomes
    cases hcomes with
    | ok htoken hplace =>
      have hkind' := w.laws.kind htoken
      obtain ⟨ts', c'', htrace, htokens, hn⟩ := ih hplace
      refine ⟨_ :: ts', c'', .step hl hscan' (hkind' ▸ hkind) ?_, .cons htoken htokens, hn⟩
      rw [hkind']
      exact htrace

theorem ends (hends : l.Ends scan)
    (hknown : ∀ t fault, scan.ending = .fault t fault → ¬w.ignores fault.cause) :
    ∃ scan', (w.twin l c').Ends scan' ∧ w.Agrees scan scan' := by
  cases hends with
  | @eof ts t m n htrace hend hkind =>
    obtain ⟨ts', c'', htrace', htokens, hm⟩ := trace hready h htrace
    have hcomes := Twin.scan (hready hm)
    rw [hend] at hcomes
    generalize hend' : (w.twin m c'').scan = result at hcomes
    cases hcomes with
    | ok htoken =>
      exact ⟨_, .eof htrace' hend' ((w.laws.kind htoken).trans hkind), htokens,
        .inl ⟨_, _, rfl, rfl, htoken⟩⟩
  | @fault ts t fault m n htrace hend =>
    obtain ⟨ts', c'', htrace', htokens, hm⟩ := trace hready h htrace
    have hcomes := Twin.scan (hready hm)
    rw [hend] at hcomes
    generalize hend' : (w.twin m c'').scan = result at hcomes
    cases hcomes with
    | error htoken hfault =>
      exact ⟨_, .fault htrace' hend', htokens, .inr ⟨_, _, _, _, rfl, rfl, htoken, hfault⟩⟩
    | ignored hignored => exact absurd hignored (hknown t fault rfl)

end Twin
end Stencil
