import Stencil.Literal
import Stencil.Proofs.Script.Lexemes

/-!
# Quoted texts stand for themselves

A quoted text is a literal of JavaScript that holds no control characters and no bare quotes, and
the literal stands for the text that was quoted. String literals of templates know fewer escapes:
there the same literal stands for the text just if all control characters in it have letters of
their own.
-/
namespace Stencil.Literal

open String

theorem unescape_cons {c : Char} (h : c ≠ '\\') (cs : List Char) :
    unescape (c :: cs) = (unescape cs).map (c :: ·) := by
  rw [unescape]
  · exact fun heq => (h heq).elim
  · exact fun _ _ heq => (h heq).elim

theorem value_of_toList {literal : String} {body read : List Char}
    (h : literal.toList = '"' :: (body ++ ['"'])) (hread : unescape body = some read) :
    value literal = .ok (ofList read) := by
  have hsize : ¬ literal.utf8ByteSize < 2 := by
    have hparts : literal = "\"" ++ ofList body ++ "\"" := by
      rw [← ofList_toList (s := literal), h, ofList_cons, ofList_append]
      rfl
    have hquote : "\"".utf8ByteSize = 1 := rfl
    rw [hparts, utf8ByteSize_append, utf8ByteSize_append]
    omega
  rw [value, if_neg hsize, h]
  dsimp only
  rw [if_pos (by simp), List.dropLast_concat, hread]

end Stencil.Literal

namespace Stencil.Script

/-! ## Literals of JavaScript -/

/-- What a backslash and one more character stand for. -/
def escapeValue? : Char → Option Char
  | 'n' => some '\n'
  | 'r' => some '\r'
  | 't' => some '\t'
  | '"' => some '"'
  | '\'' => some '\''
  | '\\' => some '\\'
  | _ => none

def hexValue? (c : Char) : Option Nat :=
  if '0' ≤ c ∧ c ≤ '9' then some (c.toNat - '0'.toNat)
  else if 'a' ≤ c ∧ c ≤ 'f' then some (c.toNat - 'a'.toNat + 10)
  else if 'A' ≤ c ∧ c ≤ 'F' then some (c.toNat - 'A'.toNat + 10)
  else none

/-- What is left of a literal after its opening quote. The first bare quote of that kind has to end
it, and there may be no line breaks in it. -/
def decodeRest (quote : Char) : List Char → Option (List Char)
  | [] => none
  | '\\' :: 'x' :: high :: low :: cs => do
    let high ← hexValue? high
    let low ← hexValue? low
    let text ← decodeRest quote cs
    some (Char.ofNat (16 * high + low) :: text)
  | '\\' :: c :: cs => do
    let value ← escapeValue? c
    let text ← decodeRest quote cs
    some (value :: text)
  | c :: cs =>
    if c = quote then if cs = [] then some [] else none
    else if c = '\\' ∨ c = '\n' ∨ c = '\r' then none
    else (decodeRest quote cs).map (c :: ·)

/-- The text that a literal in quotes of either kind stands for. -/
def decode (literal : String) : Option String :=
  match literal.toList with
  | [] => none
  | c :: cs => if c = '"' ∨ c = '\'' then (decodeRest c cs).map String.ofList else none

example : decode "'\\x4Aa\\t\\\"'" = some "Ja\t\"" := by decide +kernel
example : decode "\"a\"b\"" = none ∧ decode "\"a\\\"" = none := by decide +kernel

/-- Whether characters leave the next one escaped: a backslash escapes what follows it, unless it is
escaped itself. -/
def escapesNext (before : List Char) : Bool :=
  before.foldl (fun escaped c => c = '\\' && !escaped) false

/-! ## One character -/

/-- How a character may be written between quotes: as a backslash and a letter, by its code or as it
stands. -/
inductive Spells (c : Char) : List Char → Prop where
  | letter {e : Char} (he : 0x20 ≤ e.toNat) (hx : e ≠ 'x') (hscript : escapeValue? e = some c)
      (htemplate : Literal.escaped e = c) (hc : c.toNat < 0x20 → c = '\t' ∨ c = '\n' ∨ c = '\r') :
      Spells c ['\\', e]
  | code {high low : Nat} (hcode : 16 * high + low = c.toNat) (hcontrol : c.toNat < 0x20)
      (hlow : low < 16) (hc : ¬(c = '\t' ∨ c = '\n' ∨ c = '\r')) :
      Spells c ['\\', 'x', Nat.digitChar high, Nat.digitChar low]
  | plain (hc : 0x20 ≤ c.toNat) (hquote : c ≠ '"' ∧ c ≠ '\'') (hslash : c ≠ '\\') : Spells c [c]

/-- Control characters have codes of two digits. -/
theorem hex_control : ∀ n < 32,
    (Text.Quoted.hex 2 n).toList = [Nat.digitChar (n / 16), Nat.digitChar (n % 16)] := by
  decide +kernel

theorem spells_escapeChar (c : Char) : Spells c (escapeChar c).toList := by
  unfold escapeChar
  split
  · next h => subst c; exact .letter (e := 'r') (by decide) (by decide) rfl rfl (by decide)
  split
  · next h => subst c; exact .letter (e := 'n') (by decide) (by decide) rfl rfl (by decide)
  split
  · next h => subst c; exact .letter (e := 't') (by decide) (by decide) rfl rfl (by decide)
  next hreturn hfeed htab =>
  split
  · next h => subst c; exact .letter (e := '"') (by decide) (by decide) rfl rfl (by decide)
  split
  · next h => subst c; exact .letter (e := '\'') (by decide) (by decide) rfl rfl (by decide)
  split
  · next h => subst c; exact .letter (e := '\\') (by decide) (by decide) rfl rfl (by decide)
  next hdouble hsingle hslash =>
  split
  · next hcontrol =>
    have htext : ("\\x" ++ Text.Quoted.hex 2 c.toNat).toList =
        ['\\', 'x', Nat.digitChar (c.toNat / 16), Nat.digitChar (c.toNat % 16)] := by
      rw [String.toList_append, hex_control c.toNat hcontrol]
      rfl
    rw [htext]
    exact .code (Nat.div_add_mod _ _) hcontrol (Nat.mod_lt _ (by decide)) (by simp [*])
  · next hcontrol =>
    have htext : c.toString.toList = [c] := by simp
    rw [htext]
    exact .plain (Nat.le_of_not_lt hcontrol) ⟨hdouble, hsingle⟩ hslash

theorem hexValue_digitChar : ∀ n < 16, hexValue? (Nat.digitChar n) = some n ∧
    Reader.hexDigit? (Nat.digitChar n) = some n ∧ 0x20 ≤ (Nat.digitChar n).toNat ∧ Nat.digitChar n ≠ '\\' ∧ Nat.digitChar n ≠ '"' ∧
      Nat.digitChar n ≠ '\'' := by
  decide

namespace Spells

variable {c : Char} {cs rest : List Char}

theorem high_lt {high low : Nat} (hcode : 16 * high + low = c.toNat) (hcontrol : c.toNat < 0x20) :
    high < 16 := by omega

theorem decodeRest_append (h : Spells c cs) (rest : List Char) :
    decodeRest '"' (cs ++ rest) = (decodeRest '"' rest).map (c :: ·) := by
  cases h with
  | letter he hx hscript htemplate hc =>
    rw [List.cons_append, List.singleton_append, decodeRest]
    · rw [hscript]
      cases decodeRest '"' rest <;> rfl
    · exact fun _ _ _ heq => (hx heq).elim
  | code hcode hcontrol hlow hc =>
    simp only [List.cons_append, List.nil_append]
    rw [decodeRest, (hexValue_digitChar _ (high_lt hcode hcontrol)).1,
      (hexValue_digitChar _ hlow).1]
    dsimp only [Option.bind_eq_bind, Option.bind_some]
    rw [hcode, Char.ofNat_toNat]
    cases decodeRest '"' rest <;> rfl
  | plain hc hquote hslash =>
    have hbreak : ¬(c = '\\' ∨ c = '\n' ∨ c = '\r') := by
      rintro (rfl | rfl | rfl)
      · exact hslash rfl
      · exact absurd hc (by decide)
      · exact absurd hc (by decide)
    rw [List.singleton_append, decodeRest, if_neg hquote.1, if_neg hbreak]
    · exact fun _ _ _ heq => (hslash heq).elim
    · exact fun _ _ heq => (hslash heq).elim

theorem literal_append (h : Spells c cs) (rest : List Char) :
    Reader.literal (cs ++ rest) = (Reader.literal rest).map fun r => (c :: r.1, r.2) := by
  cases h with
  | @letter e he hx hscript htemplate hc =>
    have hescaped : Reader.escaped e = c := htemplate
    rw [List.cons_append, List.singleton_append, Reader.literal, hescaped]
    · cases Reader.literal rest <;> rfl
    · exact fun _ _ _ heq => (hx heq).elim
  | code hcode hcontrol hlow hc =>
    simp only [List.cons_append, List.nil_append]
    rw [Reader.literal, (hexValue_digitChar _ (high_lt hcode hcontrol)).2.1,
      (hexValue_digitChar _ hlow).2.1]
    dsimp only [Option.bind_eq_bind, Option.bind_some]
    rw [hcode, Char.ofNat_toNat]
    cases Reader.literal rest <;> rfl
  | plain hc hquote hslash =>
    rw [List.singleton_append, Reader.literal]
    · cases Reader.literal rest <;> rfl
    · exact hquote.1
    · exact fun _ _ _ heq => (hslash heq).elim
    · exact fun _ _ heq => (hslash heq).elim

theorem printable (h : Spells c cs) : ∀ d ∈ cs, 0x20 ≤ d.toNat := by
  cases h with
  | letter he => simpa using he
  | code hcode hcontrol hlow =>
    have hhigh := (hexValue_digitChar _ (high_lt hcode hcontrol)).2.2.1
    have hlow := (hexValue_digitChar _ hlow).2.2.1
    simpa using ⟨hhigh, hlow⟩
  | plain hc => simpa using hc

theorem escapesNext_eq (h : Spells c cs) : escapesNext cs = false := by
  cases h with
  | letter => simp [escapesNext]
  | code hcode hcontrol hlow => simp [escapesNext, (hexValue_digitChar _ hlow).2.2.2.1]
  | plain hc hquote hslash => simp [escapesNext, hslash]

/-- A template takes a code as the letters that it is written with. -/
theorem unescape_append (h : Spells c cs) (rest : List Char) :
    ∃ read, Literal.unescape (cs ++ rest) = (Literal.unescape rest).map (read ++ ·) ∧
      ((read = [c] ∧ (c.toNat < 0x20 → c = '\t' ∨ c = '\n' ∨ c = '\r')) ∨
        (read.head? = some 'x' ∧ c.toNat < 0x20 ∧ ¬(c = '\t' ∨ c = '\n' ∨ c = '\r'))) := by
  cases h with
  | letter he hx hscript htemplate hc =>
    refine ⟨[c], ?_, .inl ⟨rfl, hc⟩⟩
    rw [List.cons_append, List.singleton_append, Literal.unescape, htemplate]
    rfl
  | @code high low hcode hcontrol hlow hc =>
    have hhigh := (hexValue_digitChar _ (high_lt hcode hcontrol)).2.2.2.1
    have hlow := (hexValue_digitChar _ hlow).2.2.2.1
    refine ⟨['x', Nat.digitChar high, Nat.digitChar low], ?_, .inr ⟨rfl, hcontrol, hc⟩⟩
    simp only [List.cons_append, List.nil_append]
    rw [Literal.unescape, Literal.unescape_cons hhigh, Literal.unescape_cons hlow, Option.map_map,
      Option.map_map]
    rfl
  | plain hc hquote hslash =>
    exact ⟨[c], Literal.unescape_cons hslash rest, .inl ⟨rfl, fun h => absurd hc (Nat.not_le_of_lt h)⟩⟩

end Spells

/-! ## Quotes in the body -/

/-- Every quote is escaped, if the first character is or is not. -/
def quotesEscaped (escaped : Bool) : List Char → Bool
  | [] => true
  | c :: cs =>
    (escaped || !(c = '"' || c = '\'')) && quotesEscaped (c = '\\' && !escaped) cs

variable {c : Char}

theorem Spells.quotesEscaped_append {cs : List Char} (h : Spells c cs) (rest : List Char) :
    quotesEscaped false (cs ++ rest) = quotesEscaped false rest := by
  have hplain : ∀ {d : Char} (rest : List Char), d ≠ '\\' → d ≠ '"' → d ≠ '\'' →
      quotesEscaped false (d :: rest) = quotesEscaped false rest := by
    intro d rest hslash hdouble hsingle
    simp [quotesEscaped, hslash, hdouble, hsingle]
  have hletter : ∀ (e : Char) (rest : List Char),
      quotesEscaped false ('\\' :: e :: rest) = quotesEscaped false rest := by
    intro e rest
    simp [quotesEscaped]
  cases h with
  | letter => exact hletter _ rest
  | code hcode hcontrol hlow =>
    obtain ⟨-, -, -, hhigh⟩ := hexValue_digitChar _ (Spells.high_lt hcode hcontrol)
    obtain ⟨-, -, -, hlow⟩ := hexValue_digitChar _ hlow
    simp only [List.cons_append, List.nil_append]
    rw [hletter, hplain _ hhigh.1 hhigh.2.1 hhigh.2.2, hplain _ hlow.1 hlow.2.1 hlow.2.2]
  | plain hc hquote hslash => exact hplain rest hslash hquote.1 hquote.2

theorem escaped_of_quotesEscaped {escaped : Bool} {before after : List Char}
    (h : quotesEscaped escaped (before ++ c :: after) = true) (hc : c = '"' ∨ c = '\'') :
    before.foldl (fun escaped c => c = '\\' && !escaped) escaped = true := by
  induction before generalizing escaped with
  | nil =>
    rw [List.nil_append, quotesEscaped, Bool.and_eq_true, Bool.or_eq_true] at h
    refine h.1.resolve_right fun hother => ?_
    rcases hc with rfl | rfl <;> cases hother
  | cons d before ih =>
    rw [List.cons_append, quotesEscaped, Bool.and_eq_true] at h
    exact ih h.2

/-! ## Whole texts -/

/-- What stands between the quotes. -/
def quoteBody (text : List Char) : List Char := text.flatMap fun c => (escapeChar c).toList

theorem toList_quote (text : String) :
    (quote text).toList = '"' :: (quoteBody text.toList ++ ['"']) := by
  rw [quote, String.toList_append, String.toList_append, String.toList_join, List.flatMap_map]
  rfl

/-- A literal is read up to its closing quote. -/
theorem Reader.literal_quoteBody (text rest : List Char) :
    literal (quoteBody text ++ '"' :: rest) = some (text, rest) := by
  induction text with
  | nil => rfl
  | cons c text ih =>
    rw [quoteBody, List.flatMap_cons, List.append_assoc, (spells_escapeChar c).literal_append,
      ← quoteBody, ih]
    rfl

/-- A property is read under the name it was given, bare or quoted. -/
theorem Reader.key_propertyName (name : String) (s : List Char) :
    key ((propertyName name).toList ++ ':' :: s) = some (name, ':' :: s) := by
  unfold propertyName
  split
  · next h =>
    obtain ⟨c, t, hc, hstart, _⟩ := isName_cases h
    have hq : c ≠ '"' := by rintro rfl; exact absurd hstart (by decide)
    have hid := identifier_name h (s := ':' :: s) rfl
    have hskip := skip_name h (':' :: s)
    rw [hc, List.cons_append] at hid hskip ⊢
    unfold key
    rw [hskip]
    split
    · next heq => exact absurd (List.cons.inj heq).1 hq
    · exact hid
  · have hskip : ∀ t, skip ('"' :: t) = '"' :: t := skip_cons (by decide) (by decide)
    rw [toList_quote, List.cons_append, List.append_assoc]
    simp only [key, hskip, List.singleton_append, literal_quoteBody, Option.map_some,
      String.ofList_toList]

variable (text : List Char)

theorem decodeRest_quoteBody :
    decodeRest '"' (quoteBody text ++ ['"']) = some text := by
  induction text with
  | nil => rfl
  | cons c text ih =>
    rw [quoteBody, List.flatMap_cons, List.append_assoc,
      (spells_escapeChar c).decodeRest_append, ← quoteBody, ih]
    rfl

theorem decode_quote (text : String) : decode (quote text) = some text := by
  rw [decode, toList_quote]
  dsimp only
  rw [if_pos (.inl rfl), decodeRest_quoteBody, Option.map_some, String.ofList_toList]

theorem quotesEscaped_quoteBody (rest : List Char) :
    quotesEscaped false (quoteBody text ++ rest) = quotesEscaped false rest := by
  induction text with
  | nil => rfl
  | cons c text ih =>
    rw [quoteBody, List.flatMap_cons, List.append_assoc,
      (spells_escapeChar c).quotesEscaped_append, ← quoteBody, ih]

theorem escapesNext_quoteBody : escapesNext (quoteBody text) = false := by
  induction text with
  | nil => rfl
  | cons c text ih =>
    rw [quoteBody, List.flatMap_cons, ← quoteBody, escapesNext, List.foldl_append,
      ← escapesNext, (spells_escapeChar c).escapesNext_eq]
    exact ih

theorem printable_quoteBody : ∀ c ∈ quoteBody text, 0x20 ≤ c.toNat := by
  intro c hc
  obtain ⟨d, -, hd⟩ := List.mem_flatMap.mp hc
  exact (spells_escapeChar d).printable c hd

/-- A template reads the body as the text, if each control character in it has a letter. -/
theorem unescape_quoteBody_iff :
    ∃ read, Literal.unescape (quoteBody text) = some read ∧
      (read = text ↔ ∀ c ∈ text, c.toNat < 0x20 → c = '\t' ∨ c = '\n' ∨ c = '\r') := by
  induction text with
  | nil => exact ⟨[], rfl, by simp⟩
  | cons c text ih =>
    obtain ⟨later, hlater, hiff⟩ := ih
    obtain ⟨read, hread, hcases⟩ := (spells_escapeChar c).unescape_append (quoteBody text)
    refine ⟨read ++ later, ?_, ?_⟩
    · rw [quoteBody, List.flatMap_cons, ← quoteBody, hread, hlater]
      rfl
    rw [List.forall_mem_cons, ← hiff]
    rcases hcases with ⟨rfl, hletter⟩ | ⟨hx, hcontrol, hnone⟩
    · rw [List.singleton_append, List.cons.injEq, and_iff_right rfl, and_iff_right hletter]
    · -- A code is read from its first letter on, and no letter is a control character.
      obtain ⟨tail, rfl⟩ := List.head?_eq_some_iff.mp hx
      refine iff_of_false (fun heq => ?_) fun h => hnone (h.1 hcontrol)
      obtain rfl : 'x' = c := (List.cons.inj heq).1
      exact absurd hcontrol (by decide)

theorem value_quote_iff (text : String) :
    Literal.value (quote text) = .ok text ↔
      ∀ c ∈ text.toList, c.toNat < 0x20 → c = '\t' ∨ c = '\n' ∨ c = '\r' := by
  obtain ⟨read, hread, hiff⟩ := unescape_quoteBody_iff text.toList
  rw [Literal.value_of_toList (toList_quote text) hread, Except.ok.injEq, ← hiff]
  constructor
  · rintro rfl
    exact String.toList_ofList.symm
  · rintro rfl
    exact String.ofList_toList

/-- Quoting is lossless. Between the quotes there are no control characters, and each quote there is
escaped; the literal is decoded to the text. A template's literal stands for the text just if tabs
and line breaks are the only control characters in it. -/
theorem quote_lossless (text : String) :
    (∃ body, (quote text).toList = '"' :: (body ++ ['"']) ∧ (∀ c ∈ body, 0x20 ≤ c.toNat) ∧
      escapesNext body = false ∧
      ∀ before c after, body = before ++ c :: after → c = '"' ∨ c = '\'' →
        escapesNext before = true) ∧
    decode (quote text) = some text ∧
    (Literal.value (quote text) = .ok text ↔
      ∀ c ∈ text.toList, c.toNat < 0x20 → c = '\t' ∨ c = '\n' ∨ c = '\r') := by
  refine ⟨⟨quoteBody text.toList, toList_quote text, printable_quoteBody _, ?_, ?_⟩,
    decode_quote text, value_quote_iff text⟩
  · exact escapesNext_quoteBody text.toList
  · intro before c after hbody hc
    have hall := quotesEscaped_quoteBody text.toList []
    rw [List.append_nil, hbody] at hall
    exact escaped_of_quotesEscaped hall hc

end Stencil.Script
