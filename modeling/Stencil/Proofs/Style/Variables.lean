import Stencil.Proofs.Compile.Totality
import Stencil.Proofs.Style.Printing

/-!
# Variables in property values

A property value is a row of words, strings and signs. A style sheet shows it token by token: a word
that is the name of a variable with a value becomes the value, unless it stands right behind a dot,
and everything else stays. The variables are looked for in the text of the value, where the tokens
are no longer told apart, so a name inside a string or in front of a percent sign is found as well;
of such a token nothing is said here.
-/
namespace Stencil

open Written (line)
open Substitution (isRunChar isVariable replaceRun substituteFrom)
open Text (joinBytes)
open List

/-! ## What a value becomes -/

/-- A letter or an underscore, then word characters and dashes. -/
def isVariableName (name : String) : Bool :=
  name.toList.head?.any Text.isLetter && name.toList.all fun c => Text.isWordChar c || c == '-'

/-- The longest runs of word characters, dots and dashes in a text. The first one may be empty. -/
def wordRuns (text : String) : List String :=
  (text.toList.splitOnP fun c => !isRunChar c).map String.ofList

/-- No run in the text names a variable with a value. Behind a dot the first run names none. -/
def IsQuiet (value? : String → Option ByteArray) (dotted : Bool) (text : String) : Prop :=
  ∀ name ∈ if dotted then (wordRuns text).tail else wordRuns text,
    isVariableName name = true → value? name = none

/-- What a token or a blank becomes, by whether it stands right behind a dot. -/
inductive Replaced (value? : String → Option ByteArray) (dotted : Bool) :
    Written → ByteArray → Prop where
  | blank : Replaced value? dotted .blank " ".toUTF8
  | sign {kind : TokenKind} {text : String} (hkind : kind ≠ .styleWord ∧ kind ≠ .string) :
      Replaced value? dotted (.mark kind text) text.toUTF8
  | name {text : String} (hdotted : dotted = false) (hname : isVariableName text = true) :
      Replaced value? dotted (.mark .styleWord text) ((value? text).getD text.toUTF8)
  | kept {kind : TokenKind} {text : String} (hquiet : IsQuiet value? dotted text) :
      Replaced value? dotted (.mark kind text) text.toUTF8
  | loud {kind : TokenKind} {text : String} {bytes : ByteArray}
      (hkind : kind = .string ∨ (kind = .styleWord ∧ (dotted = true ∨ isVariableName text = false)))
      (hloud : ¬IsQuiet value? dotted text) : Replaced value? dotted (.mark kind text) bytes

def Written.isDot : Written → Bool
  | .mark .dot _ => true
  | _ => false

/-- What a row of tokens becomes, one after another. -/
inductive Replaces (value? : String → Option ByteArray) :
    Bool → List Written → ByteArray → Prop where
  | done {dotted : Bool} : Replaces value? dotted [] .empty
  | token {dotted : Bool} {w : Written} {ws : List Written} {bytes later : ByteArray}
      (hfirst : Replaced value? dotted w bytes) (hlater : Replaces value? w.isDot ws later) :
      Replaces value? dotted (w :: ws) (bytes ++ later)

/-- The defaults of a variable, as they are written. -/
def StyleBlock.fallbacks (b : StyleBlock) (name : String) : List String :=
  (b.params.filter (·.name = name)).filterMap (·.fallback)

/-- The value of a variable of a block: the given one, or else what its last default stands for. -/
structure StyleBlock.Defines (given : Values) (b : StyleBlock) (name : String)
    (value : Option ByteArray) : Prop where
  undeclared : (∀ p ∈ b.params, p.name ≠ name) → value = none
  overridden : ∀ p ∈ b.params, p.name = name → ∀ text, given.lookup name = some text →
    value = some text.toUTF8
  unescaped : given.lookup name = none → ∀ literal text,
    (b.fallbacks name).getLast? = some literal → Literal.value literal = .ok text →
      value = some text.toUTF8
  valueless : given.lookup name = none → b.fallbacks name = [] → value = none

/-- A rule with the values of its properties put in. -/
def Rule.textWith (shown : Property → ByteArray) (r : Rule) : ByteArray :=
  (", ".intercalate (r.selectors.map Selector.text) ++ " \x7b\n").toUTF8 ++
    joinBytes (r.properties.map fun p =>
      ("    " ++ p.name ++ ": ").toUTF8 ++ shown p ++ ";\n".toUTF8) ++ "\x7d\n\n".toUTF8

/-! ## Values of variables -/

namespace StyleBlock

theorem value?_of_not_given {given : Values} {b : StyleBlock} {name : String}
    (h : given.lookup name = none) :
    b.value? given name = (b.fallbacks name).getLast?.map Literal.looseValue := by
  have hparam : (fun p : Param => if p.name = name then p.value? given else none) =
      fun p => if p.name = name then p.fallback.map Literal.looseValue else none := by
    funext p
    by_cases hp : p.name = name
    · rw [if_pos hp, if_pos hp, Param.value?, hp, h]
      rfl
    · rw [if_neg hp, if_neg hp]
  have hfallbacks : b.params.filterMap
      (fun p => if p.name = name then p.fallback.map Literal.looseValue else none) =
        (b.fallbacks name).map Literal.looseValue := by
    rw [fallbacks]
    induction b.params with
    | nil => rfl
    | cons p params ih =>
      by_cases hp : p.name = name
      · cases hfallback : p.fallback <;> simp [hp, hfallback, ih]
      · simp [hp, ih]
  rw [value?, hparam, ← head?_filterMap, filterMap_reverse, head?_reverse, hfallbacks, getLast?_map]

theorem defines_value? (given : Values) (b : StyleBlock) (name : String) :
    b.Defines given name (b.value? given name) where
  undeclared h := by
    rw [value?, findSome?_eq_none_iff]
    intro p hp
    rw [if_neg (h p (mem_reverse.mp hp))]
  overridden p hp hname text htext := by
    have hsome : ∀ q : Param, q.name = name → q.value? given = some text.toUTF8 := by
      intro q hq
      rw [Param.value?, hq, htext]
      rfl
    cases hvalue : b.value? given name with
    | none =>
      rw [value?, findSome?_eq_none_iff] at hvalue
      have := hvalue p (mem_reverse.mpr hp)
      rw [if_pos hname, hsome p hname] at this
      cases this
    | some bytes =>
      obtain ⟨q, hq, hbytes⟩ := exists_of_findSome?_eq_some hvalue
      by_cases hqname : q.name = name
      · rw [if_pos hqname, hsome q hqname] at hbytes
        exact hbytes.symm
      · rw [if_neg hqname] at hbytes
        cases hbytes
  unescaped h literal text hlast hvalue := by
    rw [value?_of_not_given h, hlast, Option.map_some, Literal.looseValue, hvalue]
  valueless h hnone := by
    rw [value?_of_not_given h, hnone]
    rfl

end StyleBlock

/-! ## Going over a text -/

theorem Text.joinBytes_cons (piece : ByteArray) (pieces : List ByteArray) :
    joinBytes (piece :: pieces) = piece ++ joinBytes pieces := by
  have hfront : ∀ front, pieces.foldl (· ++ ·) front = front ++ joinBytes pieces := by
    rw [joinBytes]
    induction pieces with
    | nil => simp
    | cons p ps ih =>
      intro front
      rw [foldl_cons, foldl_cons, ih (front ++ p), ih (.empty ++ p)]
      simp [ByteArray.append_assoc]
  rw [joinBytes, foldl_cons, hfront]
  simp

namespace Substitution

variable {value? : String → Option ByteArray} {run cs ds : List Char} {c : Char}

/-- The bytes of a text with a run before it, last character first. -/
def bytesFrom (value? : String → Option ByteArray) (run cs : List Char) : ByteArray :=
  joinBytes (substituteFrom value? run cs)

theorem bytesFrom_nil : bytesFrom value? run [] = replaceRun value? run.reverse := by
  simp [bytesFrom, substituteFrom, joinBytes]

theorem bytesFrom_cons_run (h : isRunChar c) :
    bytesFrom value? run (c :: cs) = bytesFrom value? (c :: run) cs := by
  rw [bytesFrom, substituteFrom, if_pos h]
  rfl

theorem bytesFrom_cons_stop (h : isRunChar c = false) :
    bytesFrom value? run (c :: cs) =
      replaceRun value? run.reverse ++ (c.toString.toUTF8 ++ bytesFrom value? [] cs) := by
  rw [bytesFrom, substituteFrom, if_neg (by rw [h]; exact Bool.false_ne_true), Text.joinBytes_cons,
    Text.joinBytes_cons]
  rfl

theorem replaceRun_nil : replaceRun value? [] = .empty := rfl

/-- A text may be cut in front of a character that is in no run. -/
theorem bytesFrom_append (h : isRunChar (ds.headD '\n') = false) :
    bytesFrom value? run (cs ++ ds) = bytesFrom value? run cs ++ bytesFrom value? [] ds := by
  induction cs generalizing run with
  | nil =>
    rw [nil_append, bytesFrom_nil]
    cases ds with
    | nil =>
      rw [bytesFrom_nil, bytesFrom_nil, reverse_nil, replaceRun_nil, ByteArray.append_empty]
    | cons d ds =>
      rw [headD_cons] at h
      rw [bytesFrom_cons_stop h, bytesFrom_cons_stop h, reverse_nil, replaceRun_nil,
        ByteArray.empty_append]
  | cons c cs ih =>
    rw [cons_append]
    by_cases hc : isRunChar c
    · rw [bytesFrom_cons_run hc, bytesFrom_cons_run hc, ih]
    · have hstop : isRunChar c = false := Bool.eq_false_iff.mpr hc
      rw [bytesFrom_cons_stop hstop, bytesFrom_cons_stop hstop, ih]
      simp [ByteArray.append_assoc]

theorem bytesFrom_of_run (h : ∀ c ∈ cs, isRunChar c) :
    bytesFrom value? run cs = replaceRun value? (run.reverse ++ cs) := by
  induction cs generalizing run with
  | nil => rw [bytesFrom_nil, append_nil]
  | cons c cs ih =>
    obtain ⟨hc, hlater⟩ := forall_mem_cons.mp h
    rw [bytesFrom_cons_run hc, ih hlater, reverse_cons, append_assoc]
    rfl

theorem isVariableName_of_run (hrun : ∀ c ∈ run, isRunChar c) (h : isVariable run) :
    isVariableName (String.ofList run) := by
  rw [isVariable, Bool.and_eq_true, all_eq_true] at h
  rw [isVariableName, String.toList_ofList, Bool.and_eq_true, all_eq_true]
  refine ⟨h.1, fun c hc => ?_⟩
  have hpart := hrun c hc
  have hdot : c ≠ '.' := of_decide_eq_true (h.2 c hc)
  simpa [isRunChar, hdot] using hpart

theorem replaceRun_of_quiet (hrun : ∀ c ∈ run, isRunChar c)
    (h : isVariableName (String.ofList run) → value? (String.ofList run) = none) :
    replaceRun value? run = (String.ofList run).toUTF8 := by
  unfold replaceRun
  dsimp only
  split
  · next hvariable => rw [h (isVariableName_of_run hrun hvariable), Option.getD_none]
  · rfl

theorem toUTF8_append (s t : String) : (s ++ t).toUTF8 = s.toUTF8 ++ t.toUTF8 :=
  String.toByteArray_append

/-- A text stays as it is if none of its runs is the name of a variable. -/
theorem bytesFrom_of_quiet {front : List Char} {rest : List (List Char)}
    (hsplit : cs.splitOnP (fun c => !isRunChar c) = front :: rest)
    (hrun : ∀ c ∈ run, isRunChar c)
    (hfront : isVariableName (String.ofList (run.reverse ++ front)) →
      value? (String.ofList (run.reverse ++ front)) = none)
    (hrest : ∀ r ∈ rest, isVariableName (String.ofList r) → value? (String.ofList r) = none) :
    bytesFrom value? run cs = (String.ofList (run.reverse ++ cs)).toUTF8 := by
  induction cs generalizing run front rest with
  | nil =>
    rw [splitOnP_nil] at hsplit
    cases hsplit
    rw [append_nil] at hfront ⊢
    rw [bytesFrom_nil, replaceRun_of_quiet _ hfront]
    simpa using hrun
  | cons c cs ih =>
    obtain ⟨next, others, hlater⟩ := exists_cons_of_ne_nil
      (splitOnP_ne_nil (fun c => !isRunChar c) cs)
    rw [splitOnP_cons_eq_if_modifyHead, hlater] at hsplit
    by_cases hc : isRunChar c
    · rw [hc, Bool.not_true, if_neg Bool.false_ne_true, modifyHead_cons] at hsplit
      cases hsplit
      have hlonger : ∀ cs, (c :: run).reverse ++ cs = run.reverse ++ c :: cs := by simp
      rw [bytesFrom_cons_run hc, ih hlater (forall_mem_cons.mpr ⟨hc, hrun⟩), hlonger]
      · rw [hlonger]
        exact hfront
      · exact hrest
    · have hstop : isRunChar c = false := Bool.eq_false_iff.mpr hc
      rw [hstop, Bool.not_false, if_pos rfl] at hsplit
      cases hsplit
      rw [append_nil] at hfront
      obtain ⟨hnext, hothers⟩ := forall_mem_cons.mp hrest
      have hown := @ih [] next others hlater (forall_mem_nil _)
      rw [reverse_nil, nil_append, nil_append] at hown
      rw [bytesFrom_cons_stop hstop, replaceRun_of_quiet _ hfront, hown hnext hothers,
        ← toUTF8_append, ← toUTF8_append]
      · congr 1
        rw [← String.toList_inj]
        simp
      · simpa using hrun

/-! ### Behind dots -/

/-- The bytes of a number of dots. -/
def dots (n : Nat) : ByteArray := (String.ofList (List.replicate n '.')).toUTF8

theorem dots_succ (n : Nat) : dots (n + 1) = dots n ++ ".".toUTF8 := by
  rw [dots, dots, ← toUTF8_append]
  congr 1
  rw [← String.toList_inj]
  simp [replicate_succ']

theorem replaceRun_dotted (n : Nat) (cs : List Char) :
    replaceRun value? (replicate (n + 1) '.' ++ cs) =
      dots (n + 1) ++ (String.ofList cs).toUTF8 := by
  have hnone : isVariable (replicate (n + 1) '.' ++ cs) = false := by
    rw [replicate_succ, cons_append]
    rfl
  unfold replaceRun
  rw [hnone, if_neg Bool.false_ne_true, dots, ← toUTF8_append, String.ofList_append]

theorem replaceRun_dots (n : Nat) : replaceRun value? (replicate n '.') = dots n := by
  cases n with
  | zero => rfl
  | succ n =>
    have hdotted := @replaceRun_dotted value? n []
    rw [append_nil] at hdotted
    rw [hdotted]
    exact ByteArray.append_empty

/-- Dots stay in front of what follows them. -/
theorem exists_bytesFrom_dots (n : Nat) (run cs : List Char) :
    ∃ bytes, bytesFrom value? (run ++ replicate (n + 1) '.') cs = dots (n + 1) ++ bytes := by
  have hreverse : ∀ run : List Char, (run ++ replicate (n + 1) '.').reverse =
      replicate (n + 1) '.' ++ run.reverse := by simp
  induction cs generalizing run with
  | nil =>
    rw [bytesFrom_nil, hreverse, replaceRun_dotted]
    exact ⟨_, rfl⟩
  | cons c cs ih =>
    by_cases hc : isRunChar c
    · rw [bytesFrom_cons_run hc]
      exact ih (c :: run)
    · rw [bytesFrom_cons_stop (Bool.eq_false_iff.mpr hc), hreverse, replaceRun_dotted,
        ByteArray.append_assoc]
      exact ⟨_, rfl⟩

end Substitution

/-! ## Tokens -/

open Substitution (bytesFrom dots)

section Tokens

variable {value? : String → Option ByteArray} {ws : List Written} {name text : String}

theorem isRunChar_of_isVariableName (h : isVariableName name) : ∀ c ∈ name.toList, isRunChar c := by
  rw [isVariableName, Bool.and_eq_true, all_eq_true] at h
  intro c hc
  have hpart := h.2 c hc
  rw [Bool.or_eq_true] at hpart
  rw [isRunChar, Bool.or_assoc, Bool.or_eq_true, Bool.or_eq_true]
  exact hpart.imp id Or.inr

theorem replaceRun_name (h : isVariableName name) :
    replaceRun value? name.toList = (value? name).getD name.toUTF8 := by
  have hletter : isVariable name.toList := by
    rw [isVariableName, Bool.and_eq_true, all_eq_true] at h
    rw [isVariable, Bool.and_eq_true, all_eq_true]
    refine ⟨h.1, fun c hc => decide_eq_true ?_⟩
    rintro rfl
    exact absurd (h.2 _ hc) (by decide)
  unfold replaceRun
  rw [if_pos hletter, String.ofList_toList]

/-- Behind dots, which belong to the first run, a quiet text stays as it is. -/
theorem bytesFrom_dots_of_quiet {n : Nat} (h : IsQuiet value? (0 < n) text) :
    bytesFrom value? (replicate n '.') text.toList = dots n ++ text.toUTF8 := by
  obtain ⟨front, rest, hsplit⟩ := exists_cons_of_ne_nil
    (splitOnP_ne_nil (fun c => !isRunChar c) text.toList)
  have hruns : wordRuns text = String.ofList front :: rest.map String.ofList := by
    rw [wordRuns, hsplit, map_cons]
  rw [IsQuiet, hruns, tail_cons] at h
  have hdots : ∀ c ∈ replicate n '.', isRunChar c := by
    intro c hc
    rw [eq_of_mem_replicate hc]
    rfl
  have hrest : ∀ r ∈ rest, isVariableName (String.ofList r) →
      value? (String.ofList r) = none := by
    intro r hr
    apply h
    have hmem : String.ofList r ∈ rest.map String.ofList := mem_map_of_mem hr
    split
    · exact hmem
    · exact mem_cons_of_mem _ hmem
  have hfront : isVariableName (String.ofList ((replicate n '.').reverse ++ front)) →
      value? (String.ofList ((replicate n '.').reverse ++ front)) = none := by
    cases n with
    | zero => exact h _ mem_cons_self
    | succ n =>
      intro hname
      rw [reverse_replicate, replicate_succ, isVariableName, String.toList_ofList] at hname
      cases hname
  rw [Substitution.bytesFrom_of_quiet hsplit hdots hfront hrest, reverse_replicate,
    String.ofList_append, String.ofList_toList, Substitution.toUTF8_append]
  rfl

/-- A word or a string by itself, with the dots before it. -/
theorem exists_replaced {kind : TokenKind} (hkind : kind = .styleWord ∨ kind = .string)
    (text : String) (n : Nat) :
    ∃ bytes, Replaced value? (0 < n) (.mark kind text) bytes ∧
      bytesFrom value? (replicate n '.') text.toList = dots n ++ bytes := by
  by_cases hquiet : IsQuiet value? (0 < n) text
  · exact ⟨_, .kept hquiet, bytesFrom_dots_of_quiet hquiet⟩
  cases n with
  | zero =>
    have hdots : dots 0 = .empty := rfl
    rw [replicate_zero, hdots]
    by_cases hname : kind = .styleWord ∧ isVariableName text
    · obtain ⟨rfl, hname⟩ := hname
      refine ⟨_, .name rfl hname, ?_⟩
      rw [Substitution.bytesFrom_of_run (isRunChar_of_isVariableName hname), reverse_nil,
        nil_append, replaceRun_name hname, ByteArray.empty_append]
    · refine ⟨_, .loud ?_ hquiet, ByteArray.empty_append.symm⟩
      rcases hkind with rfl | rfl
      · exact .inr ⟨rfl, .inr (by simpa using hname)⟩
      · exact .inl rfl
  | succ n =>
    obtain ⟨bytes, hbytes⟩ := @Substitution.exists_bytesFrom_dots value? n [] text.toList
    refine ⟨bytes, .loud ?_ hquiet, hbytes⟩
    rcases hkind with rfl | rfl
    · exact .inr ⟨rfl, .inl (by simp)⟩
    · exact .inl rfl

/-- Tokens become what they should, whatever number of dots stands right before them. -/
def Shows (value? : String → Option ByteArray) (ws : List Written) : Prop :=
  ∀ n, ∃ bytes, Replaces value? (0 < n) ws bytes ∧
    bytesFrom value? (List.replicate n '.') (line ws) = dots n ++ bytes

theorem shows_nil : Shows value? [] := by
  intro n
  refine ⟨.empty, .done, ?_⟩
  rw [ByteArray.append_empty, line, flatMap_nil, Substitution.bytesFrom_nil,
    reverse_replicate, Substitution.replaceRun_dots]

theorem Shows.exists_replaces (h : Shows value? ws) :
    ∃ bytes, Replaces value? false ws bytes ∧ bytesFrom value? [] (line ws) = bytes := by
  obtain ⟨bytes, hreplaces, hbytes⟩ := h 0
  exact ⟨bytes, hreplaces, hbytes.trans ByteArray.empty_append⟩

/-- A token of one character that belongs to no run. -/
theorem Shows.cons {w : Written} {c : Char} (h : Shows value? ws) (hchars : w.chars = [c])
    (hc : isRunChar c = false) (hdot : w.isDot = false)
    (hw : ∀ dotted, Replaced value? dotted w c.toString.toUTF8) : Shows value? (w :: ws) := by
  intro n
  obtain ⟨later, hlater, hbytes⟩ := h.exists_replaces
  rw [← hdot] at hlater
  have hline : line (w :: ws) = c :: line ws := by rw [line, flatMap_cons, hchars]; rfl
  refine ⟨_, .token (hw _) hlater, ?_⟩
  rw [hline, Substitution.bytesFrom_cons_stop hc, reverse_replicate,
    Substitution.replaceRun_dots, hbytes]

theorem Shows.blank (h : Shows value? ws) : Shows value? (.blank :: ws) :=
  h.cons rfl rfl rfl fun _ => .blank

theorem Shows.dot (h : Shows value? ws) : Shows value? (.mark .dot "." :: ws) := by
  intro n
  obtain ⟨later, hlater, hbytes⟩ := h (n + 1)
  rw [decide_eq_true (Nat.succ_pos n)] at hlater
  refine ⟨_, .token (.sign ⟨TokenKind.noConfusion, TokenKind.noConfusion⟩) hlater, ?_⟩
  have hline : line (.mark .dot "." :: ws) = '.' :: line ws := rfl
  rw [replicate_succ, Substitution.dots_succ] at hbytes
  rw [hline, Substitution.bytesFrom_cons_run rfl, hbytes, ByteArray.append_assoc]

/-- A word or a string, in front of a character that belongs to no run. -/
theorem Shows.literal (h : Shows value? ws) (hstop : isRunChar (Written.first ws) = false)
    (x : StyleLiteral) : Shows value? (x.written :: ws) := by
  intro n
  have hkind : x.kind = .styleWord ∨ x.kind = .string := by
    cases x with
    | word => exact .inl rfl
    | string => exact .inr rfl
  have hdot : x.written.isDot = false := by cases x <;> rfl
  obtain ⟨bytes, hword, hbytes⟩ := @exists_replaced value? x.kind hkind x.text n
  obtain ⟨later, hlater, hafter⟩ := h.exists_replaces
  rw [← hdot] at hlater
  refine ⟨_, .token hword hlater, ?_⟩
  rw [StyleLiteral.written, Written.line_cons_mark, Substitution.bytesFrom_append hstop, hbytes,
    hafter, ByteArray.append_assoc]

variable (v : StyleValue)

/-- What a value goes on with after a word belongs to no run. -/
theorem StyleValue.first_later (hstop : Stopped ws) :
    isRunChar (Written.first (v.written false ++ ws)) = false := by
  cases v with
  | done => rcases hstop with h | h | h <;> rw [written, nil_append, h] <;> rfl
  | word x rest => rfl
  | call x inner rest => rfl
  | sign s rest => cases s <;> rfl

theorem Shows.sign (h : Shows value? ws) (s : StyleSign) : Shows value? (s.written :: ws) := by
  cases s with
  | comma | slash | mark =>
    exact h.cons rfl rfl rfl fun _ => .sign ⟨TokenKind.noConfusion, TokenKind.noConfusion⟩
  | dot => exact h.dot

theorem Shows.gap (h : Shows value? ws) (glued : Bool) :
    Shows value? (Written.gap glued ++ ws) := by
  cases glued with
  | true => exact h
  | false => exact h.blank

theorem StyleValue.shows (glued : Bool) (h : Shows value? ws)
    (hstop : Stopped ws) : Shows value? (v.written glued ++ ws) := by
  induction v generalizing glued ws with
  | done => exact h
  | word x rest ih =>
    rw [written, append_assoc]
    exact ((ih false h hstop).literal (rest.first_later hstop) x).gap glued
  | call x inner rest ihInner ihRest =>
    have hbracket : ∀ w ws, w = Written.opening .paren ∨ w = Written.closing .paren →
        Shows value? ws → Shows value? (w :: ws) := by
      rintro w ws (rfl | rfl) hws
      · exact hws.cons rfl rfl rfl fun _ => .sign ⟨TokenKind.noConfusion, TokenKind.noConfusion⟩
      · exact hws.cons rfl rfl rfl fun _ => .sign ⟨TokenKind.noConfusion, TokenKind.noConfusion⟩
    have hclose := hbracket _ _ (.inr rfl) (ihRest false h hstop)
    have hinner := ihInner true hclose (.inr (.inl rfl))
    have hopen := hbracket _ _ (.inl rfl) hinner
    have hwhole := (hopen.literal rfl x).gap glued
    simpa [written, Written.enclose] using hwhole
  | sign s rest ih =>
    rw [written, append_assoc]
    exact ((ih s.glues h hstop).sign s).gap _

/-- The tokens of a value become what the whole text of the value does. -/
theorem StyleValue.replaces_substitute (h : text.toList = line (v.written true)) :
    Replaces value? false (v.written true) (substitute value? text) := by
  obtain ⟨bytes, hreplaces, hbytes⟩ := (v.shows true shows_nil (.inr (.inr rfl))).exists_replaces
  rw [append_nil] at hreplaces hbytes
  rw [substitute, h, ← bytesFrom, hbytes]
  exact hreplaces

end Tokens

/-! ## Style sheets -/

/-- A style sheet shows every property with its value, in which the variables of the block have been
replaced token by token. -/
theorem Template.styleText_replaces_words {file source : String} {t : Template}
    (h : Template.read file source = .ok t) (given : Values) :
    ∃ shown : StyleBlock → Property → ByteArray,
      t.styleText? given = some (joinBytes (t.styleBlocks.map fun b =>
        joinBytes (b.rules.map (Rule.textWith (shown b))))) ∧
      ∀ b ∈ t.styleBlocks, (∀ name, b.Defines given name (b.value? given name)) ∧
        ∀ r ∈ b.rules, ∀ p ∈ r.properties,
          (∃ v : StyleValue, p.value.toList = line (v.written true)) ∧
          ∀ v : StyleValue, p.value.toList = line (v.written true) →
            Replaces (b.value? given) false (v.written true) (shown b p) := by
  refine ⟨fun b p => substitute (b.value? given) p.value, ?_, fun b hb => ⟨?_, ?_⟩⟩
  · exact Template.styleText?_eq (Template.isQuoted_of_read h) given
  · exact b.defines_value? given
  · intro r hr p hp
    have hspelled := ((Template.isSpelled_of_read h hb).rules r hr).properties p hp
    exact ⟨hspelled.value, fun v hv => v.replaces_substitute hv⟩

def bordersSource : String :=
  "css(fg=\"red\"):\n  p\n    color: fg\n    border: 1.5em fg, f(fg) fg-2 \"no\"\n"

def bordersSheet : String :=
  "p \x7b\n    color: #123;\n    border: 1.5em #123, f(#123) fg-2 \"no\";\n\x7d\n\n"

/-- A given value is put in for each of the three words, and the word that only contains the name
and the string stay. -/
theorem borders_replace_words :
    ∃ t, Template.read "page" bordersSource = .ok t ∧
      t.styleText? [("fg", "#123")] = some bordersSheet.toUTF8 ∧
      ∃ shown : StyleBlock → Property → ByteArray, ∀ b ∈ t.styleBlocks, ∀ r ∈ b.rules,
        ∀ p ∈ r.properties, ∀ v : StyleValue, p.value.toList = line (v.written true) →
          Replaces (b.value? [("fg", "#123")]) false (v.written true) (shown b p) := by
  obtain ⟨t, hread, htext⟩ := @exists_of_toOption _ _ (Template.read "page" bordersSource)
    (fun t => t.styleText? [("fg", "#123")] = some bordersSheet.toUTF8)
    (by decide +kernel)
  obtain ⟨shown, -, hshown⟩ := Template.styleText_replaces_words hread [("fg", "#123")]
  refine ⟨t, hread, of_decide_eq_true htext, shown, fun b hb r hr p hp => ?_⟩
  exact ((hshown b hb).2 r hr p hp).2

def replaceWord (value? : String → Option ByteArray) : Written → ByteArray
  | .mark .styleWord text => (value? text).getD text.toUTF8
  | w => (String.ofList w.chars).toUTF8

/-- What a row of tokens would become if every word that names a variable were replaced, and nothing
else. -/
def replaceWords (value? : String → Option ByteArray) (ws : List Written) : ByteArray :=
  joinBytes (ws.map (replaceWord value?))

/-- Values with the name of a variable that is not seen right behind a dot, is no name since it
starts with a dash, or is seen in a string and in front of a percent sign. -/
def glued : List (String × StyleValue) :=
  [(".fg", .sign .dot (.word (.word "fg" (by decide)) .done)),
    ("-fg", .word (.word "-fg" (by decide)) .done),
    ("\"fg\"", .word (.string "\"fg\"" (by decide +kernel)) .done),
    ("fg%", .word (.word "fg%" (by decide)) .done)]

def gluedSource : String :=
  "css(fg=\"red\", -fg=\"blue\"):\n  p\n    color: .fg\n    background: -fg\n" ++
    "    content: \"fg\"\n    width: fg%\n"

/-- Variables are not the same as words. -/
theorem variables_are_not_words :
    ∃ t, Template.read "page" gluedSource = .ok t ∧
      ∃ b ∈ t.styleBlocks, ∃ r ∈ b.rules, r.properties.map (·.value) = glued.map (·.1) ∧
        ∀ value ∈ glued, value.1.toList = line (value.2.written true) ∧
          substitute (b.value? []) value.1 ≠ replaceWords (b.value? []) (value.2.written true) := by
  obtain ⟨t, hread, htest⟩ := @exists_of_toOption _ _ (Template.read "page" gluedSource)
    (fun t => t.styleBlocks.any fun b => b.rules.any fun r =>
      r.properties.map (·.value) = glued.map (·.1) && glued.all fun value =>
        value.1.toList = line (value.2.written true) &&
          substitute (b.value? []) value.1 ≠ replaceWords (b.value? []) (value.2.written true))
    (by decide +kernel)
  simp only [List.any_eq_true, List.all_eq_true, Bool.and_eq_true, decide_eq_true_eq] at htest
  exact ⟨t, hread, htest⟩

end Stencil
