import Mathlib.Data.List.Forall2
import Stencil.Proofs.Token.Progress
import Stencil.Proofs.Token.Spelling

/-!
# Readers of related tokens

A reader sees of a token its kind, its place, whether it follows the one before without a gap, and
its literal if the kind has more than one spelling. Where two readings agree in all of these, up to a
number of lines between them, a reader does the same in both.

The second reading may have more tokens after those of the first. Then what a reader gives is known as
long as it does not come to the last of the first tokens, and nothing is said of a reader that fails.
If the two readings end together, a reader that fails fails in both, and what is known of the two
faults is part of the relation.

The relation between the two readings is put together the way the readers are. It carries a bound on
the number of tokens, since loops have more rounds where there are more tokens, and a condition on the
token in front. A reader takes no token without having seen that it is not the last one. So a loop has
rounds to spare, and the same relation tells how a reader goes on over the tokens.
-/
namespace Stencil

open List

/-- Readers find such faults; the others are found by the scanner. -/
def Cause.isSyntax : Cause → Bool
  | .expected .. | .letInBranch | .storeOutsideElement | .linkOutsideElement | .badLiteral .. => true
  | _ => false

/-- A literal is refused only if it is that of the token, a string without a value. -/
def Cause.IsAt (cause : Cause) (t : Token) : Prop :=
  ∀ literal flaw, cause = .badLiteral literal flaw →
    t.kind = .string ∧ Literal.value t.literal = .error flaw

/-- Neither the end of a source nor the token of a fault. -/
def TokenKind.isInner : TokenKind → Bool
  | .eof | .error => false
  | _ => true

theorem TokenKind.ne_eof {k : TokenKind} (h : k.isInner) : k ≠ .eof := by rintro rfl; cases h

theorem isInner_of_isSpelled {k : TokenKind} (h : k.isSpelled) : k.isInner := by
  cases k with
  | eof | error => cases h
  | _ => rfl

theorem Reading.IsEnded.isInner {reading : Reading} (h : reading.IsEnded) :
    reading.ending.token.kind.isInner = false := by
  rcases h with h | h
  · rw [h]; rfl
  · rw [h]; rfl

theorem Reading.IsEnded.not_isSpelled {reading : Reading} (h : reading.IsEnded) :
    ¬reading.ending.token.kind.isSpelled := fun hspelled =>
  Bool.false_ne_true (h.isInner.symm.trans (isInner_of_isSpelled hspelled))

def Position.down (lines : Nat) (p : Position) : Position := { p with line := p.line + lines }

/-- Two readings, how the tokens and the faults of the first are found in the second, and the tokens
after them there. Where a level ends is never looked at, so its place may differ if more tokens
follow. -/
structure Relocation where
  left : Reading
  right : Reading
  lines : Nat
  more : List Token
  /-- The two readings end together. -/
  whole : Prop
  /-- The actions in the second reading are told. -/
  counted : Prop
  token : Token → Token → Prop
  fault : Fault → Fault → Prop
  kind : ∀ {t u}, token t u → u.kind = t.kind
  literal : ∀ {t u}, token t u → t.kind.isSpelled = true → u.literal = t.literal
  position : ∀ {t u}, token t u → whole ∨ t.kind ≠ .dedent →
    u.position right.file = (t.position left.file).down lines
  joined : ∀ {t u t' u'}, token t u → token t' u' → isNamePiece t = true → isNamePiece t' = true →
    (u'.offset = u.stop ↔ t'.offset = t.stop)
  split : ∀ {t u}, token t u → t.kind = .string → ∀ text, Literal.value t.literal = .ok text →
    right.split text = left.split text
  ending : whole → token left.ending.token (more.headD right.ending.token)
  expected : whole → ∀ {t u}, token t u → ∀ what, fault ⟨t.position left.file, .expected what t⟩
    ⟨u.position right.file, .expected what u⟩
  refused : whole → ∀ {t u}, token t u → ∀ cause, cause.isSyntax = true → cause.IsAt t →
    fault ⟨t.position left.file, cause⟩ ⟨u.position right.file, cause⟩
  stopped : whole → ∀ {cause : Token → Cause}, (∀ {t u}, token t u →
    fault ⟨t.position left.file, cause t⟩ ⟨u.position right.file, cause u⟩) →
    fault (left.faultAt cause []) (right.faultAt cause more)
  ended : left.IsEnded
  partner : ¬whole → ∃ u, token left.ending.token u
  eof : ¬whole → left.ending.token.kind = .eof
  follow : ¬whole → (more.headD right.ending.token).kind ≠ .indent ∧
    (more.headD right.ending.token).kind ≠ .styleWord
  counts : counted → whole

namespace Relocation

variable (S : Relocation) {α β : Type}

/-- Both readings end together, with no token after them, and actions are not told. -/
structure IsSingle : Prop where
  whole : S.whole
  more : S.more = []
  counted : ¬S.counted

/-- Tokens that are related one by one. -/
def Tokens (ts us : List Token) : Prop := List.Forall₂ S.token ts us

/-- What is in front is known on both sides. -/
def Within (ts : List Token) : Prop := S.whole ∨ ts ≠ []

/-- The text of a string that is related to another. -/
def IsText (text : String) : Prop :=
  ∃ t u, S.token t u ∧ t.kind = .string ∧ Literal.value t.literal = .ok text

/-- What two readers do with related tokens. Both give a value, at its other place and with related
tokens after it, or a fault. A value is known if there are tokens left, or if it is known in
`full`. -/
structure Leads (full : Prop) (move : α → α) (p q : Parser α) (ts us : List Token) : Prop where
  ok : ∀ {a rest}, p S.left ts = .ok (a, rest) → full ∨ S.Within rest →
    ∃ rest', q S.right (us ++ S.more) = .ok (move a, rest' ++ S.more) ∧ S.Tokens rest rest'
  error : ∀ {f}, p S.left ts = .error f → S.whole →
    ∃ g, q S.right (us ++ S.more) = .error g ∧ S.fault f g
  steps : S.counted → q.Paces S.right S.IsText 0 (us ++ S.more)

variable {S} {t u : Token} {ts us rest : List Token} {full full' : Prop} {move : α → α}
  {shift : β → β} {p q q' : Parser α} {f g : α → Parser β}

theorem isWord (h : S.token t u) : u.isWord = t.isWord := by
  unfold Token.isWord
  rw [S.kind h]
  split
  · rfl
  · next k hkind => rw [S.literal h (by rw [hkind]; rfl)]
  · rfl

theorem isNamePiece (h : S.token t u) : isNamePiece u = isNamePiece t := by
  rw [Stencil.isNamePiece, Stencil.isNamePiece, S.kind h, S.isWord h]

theorem more_of_kind (test : TokenKind → Bool) (h : S.token t u) : test u.kind = test t.kind := by
  rw [S.kind h]

theorem IsText.split_eq {text : String} (h : S.IsText text) : S.right.split text = S.left.split text := by
  obtain ⟨t, u, htoken, hkind, hvalue⟩ := h
  exact S.split htoken hkind text hvalue

theorem Within.of_suffix (h : S.Within rest) (hrest : rest <:+ ts) : S.Within ts :=
  h.imp_right fun hne hnil => hne (suffix_nil.mp (hnil ▸ hrest))

theorem eq_nil_of_not (h : ¬S.Within ts) : ¬S.whole ∧ ts = [] :=
  ⟨fun hwhole => h (.inl hwhole), Classical.not_not.mp fun hne => h (.inr hne)⟩

/-- The token in front has a partner, which is in front on the other side. -/
theorem Tokens.front (h : S.Tokens ts us) : ∃ u, S.token (ts.headD S.left.ending.token) u ∧
    (S.Within ts → (us ++ S.more).headD S.right.ending.token = u) := by
  cases h with
  | cons hfirst _ => exact ⟨_, hfirst, fun _ => rfl⟩
  | nil =>
    by_cases hwhole : S.whole
    · exact ⟨_, S.ending hwhole, fun _ => rfl⟩
    · obtain ⟨u, hu⟩ := S.partner hwhole
      exact ⟨u, hu, fun h => absurd (h.resolve_right fun hne => hne rfl) hwhole⟩

/-- A token that is not the last one is there on both sides. -/
theorem Tokens.inner (h : S.Tokens ts us) (hinner : (ts.headD S.left.ending.token).kind.isInner) :
    ∃ t u ts' us', ts = t :: ts' ∧ us = u :: us' ∧ S.Tokens ts' us' := by
  cases h with
  | cons _ hlater => exact ⟨_, _, _, _, rfl, rfl, hlater⟩
  | nil =>
    rw [headD_nil, S.ended.isInner] at hinner
    cases hinner

namespace Leads

theorem of_ok {a : α} {rest' : List Token} (hp : p S.left ts = .ok (a, rest))
    (hq : q S.right (us ++ S.more) = .ok (move a, rest' ++ S.more)) (h : S.Tokens rest rest')
    (hsteps : S.counted → q.Paces S.right S.IsText 0 (us ++ S.more)) :
    S.Leads full move p q ts us := by
  refine ⟨fun hok _ => ?_, fun herror => ?_, hsteps⟩
  all_goals rw [hp] at *
  · cases hok
    exact ⟨rest', hq, h⟩
  · cases herror

theorem of_error {f g : Fault} (hp : p S.left ts = .error f) (hq : q S.right (us ++ S.more) = .error g)
    (h : S.whole → S.fault f g) (hlog : q.log S.right (us ++ S.more) = []) :
    S.Leads full move p q ts us := by
  refine ⟨fun hok => ?_, fun herror hwhole => ?_, fun _ => .of_nil hlog⟩
  all_goals rw [hp] at *
  · cases hok
  · cases herror
    exact ⟨g, hq, h hwhole⟩

/-- Nothing is known on the other side where no token is left and more follow. -/
theorem of_loose (hloose : ¬S.whole) (hempty : full → ∀ a rest, p S.left [] ≠ .ok (a, rest)) :
    S.Leads full move p q [] us where
  ok hok hrest := by
    rcases hrest with hfull | hrest
    · exact absurd hok (hempty hfull _ _)
    · exact absurd (suffix_nil.mp (p.suffix hok)) (hrest.resolve_left hloose)
  error _ hwhole := absurd hwhole hloose
  steps hcounted := absurd (S.counts hcounted) hloose

theorem pure {a a' : α} (h : a' = move a) (htokens : S.Tokens ts us) :
    S.Leads full move (Pure.pure a) (Pure.pure a') ts us :=
  of_ok rfl (h ▸ rfl) htokens fun _ => .of_nil rfl

theorem advance (htokens : S.Tokens ts us) (h : (ts.headD S.left.ending.token).kind.isInner) :
    S.Leads full id Parser.advance Parser.advance ts us := by
  obtain ⟨t, u, ts, us, rfl, rfl, hlater⟩ := htokens.inner h
  exact of_ok rfl rfl hlater fun _ => .advance (Nat.succ_pos _)

theorem advance_single (htokens : S.Tokens ts us) (h : S.IsSingle) :
    S.Leads full id Parser.advance Parser.advance ts us := by
  have htail : S.Tokens ts.tail us.tail := by
    cases htokens with
    | nil => exact .nil
    | cons _ hlater => exact hlater
  refine of_ok rfl ?_ htail fun hcounted => absurd hcounted h.counted
  rw [h.more, append_nil, append_nil]
  rfl

/-- One reader after another. What the first gives has to be known where the second gives something
that is known. -/
theorem bind (hp : S.Leads full' move p q ts us)
    (hreach : full → full' ∨ (¬S.whole → ∀ a b rest, f a S.left [] ≠ .ok (b, rest)))
    (hf : ∀ {a middle middle'}, p S.left ts = .ok (a, middle) → S.Tokens middle middle' →
      S.Leads full shift (f a) (g (move a)) middle middle') :
    S.Leads full shift (p >>= f) (q >>= g) ts us where
  ok := by
    intro b rest hok hrest
    obtain ⟨a, middle, ha, hb⟩ := Parser.bind_eq_ok.mp hok
    have hknown : full' ∨ S.Within middle := by
      rcases hrest with hfull | hrest
      · refine (hreach hfull).imp_right fun hnone => Classical.not_not.mp fun hnot => ?_
        obtain ⟨hloose, rfl⟩ := eq_nil_of_not hnot
        exact hnone hloose a b rest hb
      · exact .inr (hrest.of_suffix ((f a).suffix hb))
    obtain ⟨middle', ha', hmiddle'⟩ := hp.ok ha hknown
    obtain ⟨rest', hb', hrest'⟩ := (hf ha hmiddle').ok hb hrest
    exact ⟨rest', Parser.bind_eq_ok.mpr ⟨_, _, ha', hb'⟩, hrest'⟩
  error := by
    intro fault herror hwhole
    cases hresult : p S.left ts with
    | error fault' =>
      rw [Parser.bind_of_error hresult] at herror
      cases herror
      obtain ⟨fault', hq, hfault⟩ := hp.error hresult hwhole
      exact ⟨fault', Parser.bind_of_error hq, hfault⟩
    | ok result =>
      rw [Parser.bind_of_ok hresult] at herror
      obtain ⟨middle', hq, htokens⟩ := hp.ok hresult (.inr (.inl hwhole))
      rw [Parser.bind_of_ok hq]
      exact (hf hresult htokens).error herror hwhole
  steps hcounted := by
    refine (hp.steps hcounted).bind fun a rest hok => ?_
    have hwhole := S.counts hcounted
    cases hresult : p S.left ts with
    | error fault =>
      obtain ⟨_, hq, -⟩ := hp.error hresult hwhole
      rw [hq] at hok
      cases hok
    | ok result =>
      obtain ⟨middle', hq, htokens⟩ := hp.ok hresult (.inr (.inl hwhole))
      rw [hq] at hok
      cases hok
      exact (hf hresult htokens).steps hcounted

end Leads
end Relocation

namespace Parser

variable {α β : Type}

/-- What is seen of the file and of the two tokens in front. -/
def seen (see : String → Token → Token → α) (reading : Reading) (ts : List Token) : α :=
  see reading.file (ts.headD reading.ending.token) (ts.tail.headD reading.ending.token)

/-- Any kind of token may stand in front. -/
def anyKind (_ : TokenKind) : Prop := True

/-- What `p` does with fewer than `bound` tokens, `q` does with the tokens related to them. -/
structure Follows (S : Relocation) (full : Prop) (bound : Nat) (K : TokenKind → Prop) (move : α → α)
    (p q : Parser α) : Prop where
  run : ∀ {ts us}, ts.length < bound → K (ts.headD S.left.ending.token).kind → S.Tokens ts us →
    S.Leads full move p q ts us

/-- What `p` gives if it does not come to the last of its tokens, `q` gives too. -/
abbrev Tracks (S : Relocation) (bound : Nat) (K : TokenKind → Prop) (move : α → α)
    (p q : Parser α) : Prop := Follows S False bound K move p q

/-- What `p` gives, `q` gives too, even if no token is left. -/
abbrev Covers (S : Relocation) (bound : Nat) (move : α → α) (p q : Parser α) : Prop :=
  Follows S True bound anyKind move p q

/-- At least one token is taken. -/
def Strict (K : TokenKind → Prop) (p : Parser α) : Prop :=
  ∀ reading ts a rest, reading.IsEnded → K (ts.headD reading.ending.token).kind →
    p reading ts = .ok (a, rest) → rest.length < ts.length

theorem Ends.strict {K : TokenKind → Prop} {p : Parser α} (h : p.Settles) : p.Strict K := by
  intro reading ts a rest hended _ hok
  obtain ⟨taken, rfl, htaken⟩ := h.taken hended hok
  have hpos := length_pos_iff.mpr htaken.ne_nil
  rw [length_append]
  omega

theorem advance_strict {K : TokenKind → Prop} (hK : ∀ k, K k → k.isInner) : advance.Strict K := by
  rintro reading ts a rest hended hhead ⟨⟩
  cases ts with
  | nil => exact absurd (hK _ hhead) (by rw [headD_nil, hended.isInner]; decide)
  | cons t ts => exact Nat.lt_succ_self _

theorem Strict.bind {K : TokenKind → Prop} {p : Parser α} {f : α → Parser β} (hp : p.Strict K) :
    (p >>= f).Strict K := by
  intro reading ts b rest hended hhead h
  obtain ⟨a, middle, ha, hb⟩ := bind_eq_ok.mp h
  exact Nat.lt_of_le_of_lt ((f a).suffix hb).length_le (hp _ _ _ _ hended hhead ha)

variable {S : Relocation} {full : Prop} {bound : Nat} {K : TokenKind → Prop} {move : α → α}
  {shift : β → β} {p q : Parser α} {f g : α → Parser β}

/-- The kind of the token in front has been looked at. -/
theorem isInner_front {k : TokenKind} (hk : k.isInner) : ∀ k', k' = k ∧ K k' → k'.isInner :=
  fun _ h => h.1 ▸ hk

namespace Follows

theorem mono (h : Follows S full bound K move p q) {less : Nat} (hle : less ≤ bound) :
    Follows S full less K move p q :=
  ⟨fun hlength => h.run (Nat.lt_of_lt_of_le hlength hle)⟩

theorem restrict {K' : TokenKind → Prop} (h : Follows S full bound K move p q)
    (hK : ∀ k, K' k → K k) : Follows S full bound K' move p q :=
  ⟨fun hlength hhead => h.run hlength (hK _ hhead)⟩

/-- What is known in full is known where tokens are left. -/
theorem tracks (h : Covers S bound move p q) : Tracks S bound K move p q := by
  refine ⟨fun hlength _ htokens => ?_⟩
  have hlead := h.run hlength trivial htokens
  exact ⟨fun hok _ => hlead.ok hok (.inl trivial), hlead.error, hlead.steps⟩

variable {a a' : α} {k : TokenKind}

theorem pure (h : a' = move a) : Follows S full bound K move (Pure.pure a) (Pure.pure a') :=
  ⟨fun _ _ => .pure h⟩

theorem pure_bind (h : Follows S full bound K shift (f a) (g a')) :
    Follows S full bound K shift (Pure.pure a >>= f) (Pure.pure a' >>= g) := h

theorem fail {cause : Token → Cause}
    (h : S.whole → ∀ {t u}, S.token t u → S.fault ⟨t.position S.left.file, cause t⟩
      ⟨u.position S.right.file, cause u⟩) :
    Follows S full bound K move (Parser.fail cause) (Parser.fail cause) := by
  refine ⟨fun _ _ htokens => .of_error rfl rfl (fun hwhole => ?_) rfl⟩
  cases htokens with
  | cons hfirst _ => exact h hwhole hfirst
  | nil => exact S.stopped hwhole (h hwhole)

theorem expected (what : Expectation) :
    Follows S full bound K move (Parser.expected what) (Parser.expected what) :=
  fail fun hwhole _ _ h => S.expected hwhole h what

theorem refuse {cause : Cause} (h : cause.isSyntax) (hat : ∀ t, cause.IsAt t) :
    Follows S full bound K move (Parser.fail fun _ => cause) (Parser.fail fun _ => cause) :=
  fail fun hwhole _ _ htoken => S.refused hwhole htoken cause h (hat _)

theorem ite {c : Prop} [Decidable c] {p' q' : Parser α} (hp : c → Follows S full bound K move p q)
    (hp' : ¬c → Follows S full bound K move p' q') :
    Follows S full bound K move (if c then p else p') (if c then q else q') := by
  split
  · next hc => exact hp hc
  · next hc => exact hp' hc

theorem bind (hp : Follows S full bound K move p q)
    (hf : ∀ a, Follows S full bound anyKind shift (f a) (g (move a))) :
    Follows S full bound K shift (p >>= f) (q >>= g) := by
  refine ⟨fun hlength hhead htokens => (hp.run hlength hhead htokens).bind .inl fun ha => ?_⟩
  exact (hf _).run (Nat.lt_of_le_of_lt (p.suffix ha).length_le hlength) trivial

/-- After a token is taken the bound is lower. -/
theorem bind_strict (hp : Tracks S (bound + 1) K move p q) (hstrict : p.Strict K)
    (hf : ∀ a, Tracks S bound anyKind shift (f a) (g (move a))) :
    Tracks S (bound + 1) K shift (p >>= f) (q >>= g) := by
  refine ⟨fun hlength hhead htokens => (hp.run hlength hhead htokens).bind .inl fun ha => ?_⟩
  have hlt := hstrict _ _ _ _ S.ended hhead ha
  exact (hf _).run (by omega) trivial

/-- A reader that fails goes on with nothing. -/
theorem fail_bind (h : Follows S full bound K move p q)
    (hp : ∀ reading ts a rest, p reading ts ≠ .ok (a, rest)) :
    Follows S full bound K shift (p >>= f) (q >>= g) :=
  ⟨fun hlength hhead htokens => (h.run hlength hhead htokens).bind .inl fun ha =>
    absurd ha (hp _ _ _ _)⟩

/-! ## Looking at tokens -/

/-- What is seen of the tokens on the two sides decides what follows. -/
theorem peek_bind {γ : Type} (see : String → Token → Token → γ) {f g : γ → Parser β}
    (h : ∀ {ts us}, ts.length < bound → K (ts.headD S.left.ending.token).kind → S.Tokens ts us →
      ∃ c, (full ∨ S.Within ts → seen see S.right (us ++ S.more) = c) ∧
        S.Leads full shift (f (seen see S.left ts)) (g c) ts us) :
    Follows S full bound K shift (peek see >>= f) (peek see >>= g) := by
  refine ⟨fun {ts us} hlength hhead htokens => ?_⟩
  obtain ⟨c, hc, hlead⟩ := h hlength hhead htokens
  by_cases hknown : full ∨ S.Within ts
  · rw [← hc hknown] at hlead
    refine ⟨hlead.ok, hlead.error, fun hcounted => (Paces.of_nil rfl).bind ?_⟩
    rintro _ _ ⟨⟩
    exact hlead.steps hcounted
  · obtain ⟨hloose, rfl⟩ := S.eq_nil_of_not fun hts => hknown (.inr hts)
    exact .of_loose hloose fun hfull => absurd (.inl hfull) hknown

/-- Where no token is left and more follow, what is known in full has to be nothing. -/
theorem peek_bind_of {γ : Type} (see : String → Token → Token → γ) {f g : γ → Parser β}
    (hempty : full → ¬S.whole → ∀ b rest, f (seen see S.left []) S.left [] ≠ .ok (b, rest))
    (h : ∀ {ts us}, S.Tokens ts us → K (ts.headD S.left.ending.token).kind →
      ∃ c, (S.Within ts → seen see S.right (us ++ S.more) = c) ∧
        Follows S full bound (fun k => k = (ts.headD S.left.ending.token).kind ∧ K k) shift
          (f (seen see S.left ts)) (g c)) :
    Follows S full bound K shift (peek see >>= f) (peek see >>= g) := by
  refine peek_bind see fun {ts us} hlength hhead htokens => ?_
  obtain ⟨c, hc, hfollows⟩ := h htokens hhead
  have hlead := hfollows.run hlength ⟨rfl, hhead⟩ htokens
  by_cases hts : S.Within ts
  · exact ⟨c, fun _ => hc hts, hlead⟩
  by_cases hfull : full
  · obtain ⟨hloose, rfl⟩ := S.eq_nil_of_not hts
    exact ⟨_, fun _ => rfl, .of_loose hloose fun _ => hempty hfull hloose⟩
  · exact ⟨c, fun h => absurd h (not_or.mpr ⟨hfull, hts⟩), hlead⟩

theorem current_bind_of {f g : Token → Parser β}
    (hempty : full → ¬S.whole → ∀ b rest, f S.left.ending.token S.left [] ≠ .ok (b, rest))
    (h : ∀ {t u}, S.token t u →
      Follows S full bound (fun k => k = t.kind ∧ K k) shift (f t) (g u)) :
    Follows S full bound K shift (current >>= f) (current >>= g) := by
  refine peek_bind_of (fun _ t _ => t) hempty fun htokens _ => ?_
  obtain ⟨u, hu, hfront⟩ := htokens.front
  exact ⟨u, hfront, h hu⟩

theorem current_bind {f g : Token → Parser β}
    (h : ∀ {t u}, S.token t u → Tracks S bound (fun k => k = t.kind ∧ K k) shift (f t) (g u)) :
    Tracks S bound K shift (current >>= f) (current >>= g) :=
  current_bind_of False.elim h

theorem kind_bind {f g : TokenKind → Parser β}
    (h : ∀ k, Tracks S bound (fun k' => k' = k ∧ K k') shift (f k) (g k)) :
    Tracks S bound K shift (kind >>= f) (kind >>= g) :=
  current_bind (f := fun t => f t.kind) (g := fun u => g u.kind) fun htoken => by
    rw [S.kind htoken]
    exact h _

/-- The place of a token is moved, unless a level may end here. -/
theorem here_bind {f g : Position → Parser β}
    (h : ∀ p p', (S.whole ∨ (∀ k, K k → k ≠ .dedent) → p' = p.down S.lines) →
      Tracks S bound K shift (f p) (g p')) :
    Tracks S bound K shift (here >>= f) (here >>= g) := by
  refine peek_bind_of (fun file t _ => t.position file) False.elim fun htokens hhead => ?_
  obtain ⟨u, hu, hfront⟩ := htokens.front
  refine ⟨u.position S.right.file, fun hts => congrArg (·.position S.right.file) (hfront hts),
    (h _ _ fun hdedent => ?_).restrict fun k hk => hk.2⟩
  exact S.position hu (hdedent.imp_right fun hK => hK _ hhead)

/-- The place of a token where no level ends. -/
theorem here_bind_of_ne {f g : Position → Parser β} (hK : ∀ k, K k → k ≠ .dedent)
    (h : ∀ p, Tracks S bound K shift (f p) (g (p.down S.lines))) :
    Tracks S bound K shift (here >>= f) (here >>= g) :=
  here_bind fun p _ hp => hp (.inr hK) ▸ h p

/-- The place of a token and its kind, which may show that no level ends there. -/
theorem here_kind_bind_of {f g : Position → TokenKind → Parser β}
    (hempty : full → ∀ p b rest, f p .eof S.left [] ≠ .ok (b, rest))
    (h : ∀ p p' k, (k ≠ .dedent → p' = p.down S.lines) →
      Follows S full bound (fun k' => k' = k ∧ K k') shift (f p k) (g p' k)) :
    Follows S full bound K shift (here >>= fun p => kind >>= f p) (here >>= fun p => kind >>= g p) := by
  refine peek_bind_of (fun file t _ => (t.position file, t.kind)) (f := fun c => f c.1 c.2)
    (g := fun c => g c.1 c.2) (fun hfull hloose b rest hok => ?_) fun htokens _ => ?_
  · change f _ S.left.ending.token.kind S.left [] = _ at hok
    rw [S.eof hloose] at hok
    exact hempty hfull _ _ _ hok
  · obtain ⟨u, hu, hfront⟩ := htokens.front
    refine ⟨(u.position S.right.file, u.kind), fun hts => by rw [← hfront hts]; rfl, ?_⟩
    rw [S.kind hu]
    exact h _ _ _ fun hkind => S.position hu (.inr hkind)

theorem here_kind_bind {f g : Position → TokenKind → Parser β}
    (h : ∀ p p' k, (k ≠ .dedent → p' = p.down S.lines) →
      Tracks S bound (fun k' => k' = k ∧ K k') shift (f p k) (g p' k)) :
    Tracks S bound K shift (here >>= fun p => kind >>= f p) (here >>= fun p => kind >>= g p) :=
  here_kind_bind_of False.elim h

theorem split_bind {text : String} (htext : S.IsText text) {f g : List Segment → Parser β}
    (h : ∀ segments, Tracks S bound K shift (f segments) (g segments)) :
    Tracks S bound K shift (Parser.split text >>= f) (Parser.split text >>= g) := by
  refine ⟨fun {ts us} hlength hhead htokens => ?_⟩
  have hsplit : S.Leads False id (Parser.split text) (Parser.split text) ts us :=
    .of_ok rfl (congrArg (fun segments => Except.ok (segments, us ++ S.more)) htext.split_eq) htokens
      fun _ => .split htext
  refine hsplit.bind .inl fun ha hmiddle => ?_
  cases ha
  exact (h _).run hlength hhead hmiddle

/-! ## Taking tokens -/

theorem advance (hK : ∀ k, K k → k.isInner) :
    Follows S full bound K id Parser.advance Parser.advance :=
  ⟨fun _ hhead htokens => .advance htokens (hK _ hhead)⟩

theorem advance_bind (hK : ∀ k, K k → k.isInner) {f g : Unit → Parser β}
    (h : Tracks S bound anyKind shift (f ()) (g ())) :
    Tracks S (bound + 1) K shift (Parser.advance >>= f) (Parser.advance >>= g) :=
  bind_strict (advance hK) (advance_strict hK) fun _ => h

theorem advance_spelled (hk : k.isSpelled) :
    Tracks S bound (fun k' => k' = k ∧ K k') id Parser.advance Parser.advance :=
  advance (isInner_front (isInner_of_isSpelled hk))

/-- A token that may be there. -/
theorem accept_bind (hk : k.isInner) {f g : Bool → Parser β}
    (hsome : Tracks S bound anyKind shift (f true) (g true))
    (hnone : Tracks S (bound + 1) anyKind shift (f false) (g false)) :
    Tracks S (bound + 1) K shift (Parser.accept k >>= f) (Parser.accept k >>= g) := by
  rw [accept_bind_eq, accept_bind_eq]
  exact kind_bind fun _ => .ite (fun h => advance_bind (isInner_front (h ▸ hk)) hsome) fun _ =>
    hnone.restrict fun _ _ => trivial

theorem accept (hk : k.isInner) : Tracks S bound K id (Parser.accept k) (Parser.accept k) :=
  kind_bind fun _ => .ite (fun h => (advance (isInner_front (h ▸ hk))).bind fun _ => .pure rfl)
    fun _ => .pure rfl

/-- A token that is asked for. Where what follows is known in full, it is not the end of the
source. -/
theorem expect_bind_of {f g : Token → Parser β} (heof : full → k ≠ .eof) (hk : S.IsSingle ∨ k.isInner)
    (h : ∀ {t u}, S.token t u → t.kind = k → Follows S full bound anyKind shift (f t) (g u)) :
    Follows S full bound K shift (Parser.expect k >>= f) (Parser.expect k >>= g) := by
  unfold Parser.expect
  rw [bind_assoc, bind_assoc]
  refine current_bind_of (fun hfull hloose b rest hok => ?_) fun {t u} htoken => ?_
  · rw [S.eof hloose, if_neg (heof hfull).symm] at hok
    obtain ⟨_, _, hfail, -⟩ := bind_eq_ok.mp hok
    exact fail_ne_ok _ _ _ _ _ hfail
  · rw [S.kind htoken]
    split
    · next hkind =>
      rw [bind_assoc, bind_assoc]
      have hadvance : Follows S full bound (fun k' => k' = t.kind ∧ K k') id Parser.advance
          Parser.advance := by
        refine ⟨fun _ hhead htokens => hk.elim (.advance_single htokens) fun hk => ?_⟩
        exact .advance htokens (by rwa [hhead.1, hkind])
      exact hadvance.bind fun _ => h htoken hkind
    · exact fail_bind (@expected Token S full bound _ id (.kind k)) fun _ _ => fail_ne_ok _ _ _

/-- A token of which more than the kind counts. -/
theorem expect_bind (hk : k.isInner) {f g : Token → Parser β}
    (h : ∀ {t u}, S.token t u → t.kind = k → Tracks S bound anyKind shift (f t) (g u)) :
    Tracks S bound K shift (Parser.expect k >>= f) (Parser.expect k >>= g) :=
  expect_bind_of False.elim (.inr hk) h

/-- A token of which only the kind counts. -/
theorem expect_then (hk : k.isInner) {p q : Parser β} (h : Tracks S bound anyKind shift p q) :
    Tracks S bound K shift (Parser.expect k >>= fun _ => p) (Parser.expect k >>= fun _ => q) :=
  expect_bind hk fun _ _ => h

/-- The text of a string. -/
theorem stringValue_bind {f g : String → Parser β}
    (h : ∀ text, S.IsText text → Tracks S bound anyKind shift (f text) (g text)) :
    Tracks S bound K shift (Parser.stringValue >>= f) (Parser.stringValue >>= g) := by
  unfold Parser.stringValue
  rw [bind_assoc, bind_assoc]
  refine expect_bind rfl fun {t u} htoken hkind => ?_
  have hliteral : u.literal = t.literal := S.literal htoken (by rw [hkind]; rfl)
  rw [hliteral]
  cases hvalue : Literal.value t.literal with
  | ok value => exact .pure_bind (h value ⟨t, u, htoken, hkind, hvalue⟩)
  | error flaw =>
    have hfails : Tracks S bound anyKind id (failAt t (.badLiteral t.literal flaw) : Parser String)
        (failAt u (.badLiteral t.literal flaw)) := by
      refine ⟨fun _ _ _ => .of_error rfl rfl (fun hwhole => S.refused hwhole htoken _ rfl ?_) rfl⟩
      rintro _ _ ⟨⟩
      exact ⟨hkind, hvalue⟩
    exact hfails.fail_bind fun _ _ _ _ hok => by cases hok

theorem stringValue : Tracks S bound K id Parser.stringValue Parser.stringValue := by
  have heq : Parser.stringValue = Parser.stringValue >>= fun text => Pure.pure text := by
    refine Parser.ext (funext₂ fun reading ts => ?_) (funext₂ fun reading ts => ?_)
    all_goals cases h : Parser.stringValue reading ts with
    | ok result =>
      simp only [bind_of_ok h, log_bind_of_ok h]
      first | rfl | exact (append_nil _).symm
    | error fault => simp only [bind_of_error h, log_bind_of_error h]
  rw [heq]
  exact stringValue_bind fun _ _ => .pure rfl

/-! ## Loops -/

/-- A loop goes on where it has fewer tokens than its round started with. -/
theorem again (h : Follows S full bound K move p q) (before : Nat) {before' : Nat}
    (hle : bound + S.more.length ≤ before') :
    Follows S full bound K move (Parser.again before p) (Parser.again before' q) := by
  refine ⟨fun {ts us} hlength hhead htokens => ?_⟩
  have hlead := h.run hlength hhead htokens
  have hfewer : (us ++ S.more).length < before' := by
    rw [length_append, ← List.Forall₂.length_eq htokens]
    omega
  exact ⟨hlead.ok, hlead.error, fun hcounted => (hlead.steps hcounted).again hfewer⟩

/-- A loop has more rounds than there are tokens, here and there. A round that goes on takes a
token, so it is enough to follow one round. The loop carries related states along. -/
theorem loop {σ : Type} (R : σ → σ → Prop) {step step' : (σ → Parser α) → σ → Parser α}
    {loop loop' : Nat → σ → Parser α}
    (hloop : ∀ rounds x,
      loop (rounds + 1) x = round fun again => step (fun y => again (loop rounds y)) x)
    (hloop' : ∀ rounds x,
      loop' (rounds + 1) x = round fun again => step' (fun y => again (loop' rounds y)) x)
    (hround : ∀ {less rounds before later}, less < bound →
      (∀ {x x'}, R x x' →
        Follows S full less K move (Parser.again before (loop rounds x)) (later x')) →
      ∀ {x x'}, R x x' → Follows S full (less + 1) K move
        (step (fun y => Parser.again before (loop rounds y)) x) (step' later x'))
    {x x' : σ} (hx : R x x') :
    Follows S full bound K move (Parser.bounded fun rounds => loop rounds x)
      (Parser.bounded fun rounds => loop' rounds x') := by
  have hall : ∀ {less rounds rounds'}, less ≤ bound → less ≤ rounds → less ≤ rounds' →
      ∀ {x x'}, R x x' → Follows S full less K move (loop rounds x) (loop' rounds' x') := by
    intro less
    induction less with
    | zero => exact fun _ _ _ _ _ _ => ⟨fun h => absurd h (Nat.not_lt_zero _)⟩
    | succ less ih =>
      intro rounds rounds' hbound hless hless' x x' hx
      cases rounds with
      | zero => cases hless
      | succ rounds =>
        cases rounds' with
        | zero => cases hless'
        | succ rounds' =>
          refine ⟨fun {ts us} hlength hhead htokens => ?_⟩
          have hshort := Nat.le_of_lt_succ hlength
          have hlater : ∀ {x x'}, R x x' → Follows S full ts.length K move
              (Parser.again ts.length (loop rounds x))
              (Parser.again (us ++ S.more).length (loop' rounds' x')) := by
            refine fun hx => ((ih (Nat.le_of_lt hbound) (Nat.le_of_succ_le_succ hless)
              (Nat.le_of_succ_le_succ hless') hx).mono hshort).again _ ?_
            rw [length_append, List.Forall₂.length_eq htokens]
          have hlead := (hround (Nat.lt_of_le_of_lt hshort hbound) hlater hx).run
            (Nat.lt_succ_self _) hhead htokens
          rw [hloop, hloop']
          exact ⟨hlead.ok, hlead.error, fun hcounted => (hlead.steps hcounted).measured⟩
  refine ⟨fun {ts us} hlength hhead htokens => ?_⟩
  have hrounds : ts.length ≤ (us ++ S.more).length := by
    rw [List.Forall₂.length_eq htokens, length_append]
    omega
  have hlead := (hall hlength (Nat.le_refl _) (Nat.succ_le_succ hrounds) hx).run
    (Nat.lt_succ_self _) hhead htokens
  exact ⟨hlead.ok, hlead.error, fun hcounted => (hlead.steps hcounted).measured⟩

section Rounds

variable {step step' : Parser α → Parser α} {loop loop' : Nat → Parser α}
  (hloop : ∀ rounds, loop (rounds + 1) = round fun again => step (again (loop rounds)))
  (hloop' : ∀ rounds, loop' (rounds + 1) = round fun again => step' (again (loop' rounds)))

include hloop hloop'

/-- A loop without a state. -/
theorem rounds (hround : ∀ {less rounds before later}, less < bound →
      Follows S full less K move (Parser.again before (loop rounds)) later →
      Follows S full (less + 1) K move (step (Parser.again before (loop rounds))) (step' later)) :
    Follows S full bound K move (Parser.bounded loop) (Parser.bounded loop') :=
  @Follows.loop α S full bound K move Unit (fun _ _ => True) (fun later _ => step (later ()))
    (fun later _ => step' (later ())) (fun rounds _ => loop rounds) (fun rounds _ => loop' rounds)
    (fun rounds _ => hloop rounds) (fun rounds _ => hloop' rounds)
    (fun hless ih _ _ _ => hround hless (@ih () () trivial)) () () trivial

/-- A loop that goes on whatever stands in front of it. -/
theorem rounds_any (hround : ∀ {less rounds before later}, less < bound →
      Follows S full less anyKind move (Parser.again before (loop rounds)) later →
      Follows S full (less + 1) anyKind move (step (Parser.again before (loop rounds)))
        (step' later)) :
    Follows S full bound K move (Parser.bounded loop) (Parser.bounded loop') :=
  (rounds hloop hloop' hround).restrict fun _ _ => trivial

end Rounds

section Conditional

variable {more : Token → Bool} {K' : TokenKind → Prop}
  (hmore : ∀ {t u : Token}, S.token t u → more u = more t)
  (hK : ∀ t, more t → K' t.kind) (hitem : Tracks S bound K' move p q)

include hmore hK hitem

theorem many (hstrict : p.Strict K') :
    Tracks S bound K (map move) (Parser.many more p) (Parser.many more q) := by
  refine rounds_any (fun _ => rfl) (fun _ => rfl) fun hless ih => ?_
  refine current_bind fun {t u} htoken => ?_
  rw [hmore htoken]
  refine .ite (fun ht => ?_) fun _ => .pure rfl
  refine restrict (K := K') ?_ fun k hk => hk.1 ▸ hK t ht
  exact (hitem.mono hless).bind_strict hstrict fun first => ih.bind fun _ => .pure rfl

theorem commaList :
    Tracks S bound K (map move) (Parser.commaList more p) (Parser.commaList more q) := by
  refine rounds_any (fun _ => rfl) (fun _ => rfl) fun hless ih => ?_
  refine current_bind fun {t u} htoken => ?_
  rw [hmore htoken]
  refine .ite (fun ht => ?_) fun _ => .pure rfl
  have hitem := (hitem.mono hless).restrict fun k (hk : k = t.kind ∧ anyKind k) => hk.1 ▸ hK t ht
  exact hitem.bind fun first => accept_bind rfl (ih.bind fun _ => .pure rfl) (.pure rfl)

end Conditional

theorem commaList1 (hitem : Tracks S bound anyKind move p q) :
    Tracks S bound K (map move) (Parser.commaList1 p) (Parser.commaList1 q) :=
  commaList (fun _ => rfl) (fun _ _ => trivial) hitem

end Follows

/-! ## Up to the last token -/

/-- As `Covers`, for a reader that has nothing to give where no token is left and more follow. So what
is read before it does not come to the last token. -/
structure Closes (S : Relocation) (bound : Nat) (move : α → α) (p q : Parser α) : Prop
    extends Follows S True bound anyKind move p q where
  needs : ¬S.whole → 0 < bound → ∀ a rest, p S.left [] ≠ .ok (a, rest)

theorem Follows.before (hp : Tracks S bound K move p q)
    (hf : ∀ a, Closes S bound shift (f a) (g (move a))) :
    Follows S True bound K shift (p >>= f) (q >>= g) := by
  refine ⟨fun hlength hhead htokens => ?_⟩
  refine (hp.run hlength hhead htokens).bind
    (fun _ => .inr fun hloose a => (hf a).needs hloose (Nat.zero_lt_of_lt hlength)) fun ha => ?_
  exact (hf _).run (Nat.lt_of_le_of_lt (p.suffix ha).length_le hlength) trivial

theorem Follows.closes (hp : Tracks S bound anyKind move p q)
    (hf : ∀ a, Closes S bound shift (f a) (g (move a))) :
    Closes S bound shift (p >>= f) (q >>= g) where
  toFollows := hp.before hf
  needs hloose hpos b rest hok := by
    obtain ⟨a, middle, ha, hb⟩ := bind_eq_ok.mp hok
    rw [suffix_nil.mp (p.suffix ha)] at hb
    exact (hf a).needs hloose hpos b rest hb

namespace Closes

theorem bind (hp : Closes S bound move p q) (hf : ∀ a, Covers S bound shift (f a) (g (move a))) :
    Closes S bound shift (p >>= f) (q >>= g) where
  toFollows := hp.toFollows.bind hf
  needs hloose hpos b rest hok := by
    obtain ⟨a, middle, ha, -⟩ := bind_eq_ok.mp hok
    exact hp.needs hloose hpos a middle ha

theorem ite {c : Prop} [Decidable c] {p' q' : Parser α} (hp : Closes S bound move p q)
    (hp' : Closes S bound move p' q') :
    Closes S bound move (if c then p else p') (if c then q else q') := by
  split
  · exact hp
  · exact hp'

variable {k : TokenKind}

theorem expect_bind (hk : k.isInner) {f g : Token → Parser β}
    (h : ∀ {t u}, S.token t u → t.kind = k → Covers S bound shift (f t) (g u)) :
    Closes S bound shift (Parser.expect k >>= f) (Parser.expect k >>= g) where
  toFollows := .expect_bind_of (fun _ => TokenKind.ne_eof hk) (.inr hk) h
  needs hloose _ b rest hok := by
    obtain ⟨t, _, ht, -⟩ := bind_eq_ok.mp hok
    rw [expect_eq, headD_nil, S.eof hloose, if_neg (TokenKind.ne_eof hk).symm] at ht
    exact fail_ne_ok _ _ _ _ _ ht

theorem expect_then (hk : k.isInner) {p q : Parser β} (h : Covers S bound shift p q) :
    Closes S bound shift (Parser.expect k >>= fun _ => p) (Parser.expect k >>= fun _ => q) :=
  expect_bind hk fun _ _ => h

/-- The place and the kind of the first token, where the end of the source gives nothing. -/
theorem here_kind_bind {f g : Position → TokenKind → Parser β}
    (hneeds : ∀ p a rest, f p .eof S.left [] ≠ .ok (a, rest))
    (h : ∀ p p' k, (k ≠ .dedent → p' = p.down S.lines) →
      Follows S True bound (· = k) shift (f p k) (g p' k)) :
    Closes S bound shift (here >>= fun p => kind >>= f p) (here >>= fun p => kind >>= g p) where
  toFollows := .here_kind_bind_of (fun _ => hneeds) fun p p' k hp =>
    (h p p' k hp).restrict fun _ => And.left
  needs hloose _ b rest hok := by
    change f _ S.left.ending.token.kind S.left [] = _ at hok
    rw [S.eof hloose] at hok
    exact hneeds _ _ _ hok

theorem headingEnd : Closes S bound id Parser.headingEnd Parser.headingEnd :=
  expect_then rfl (expect_then rfl (.pure rfl)).toFollows

end Closes

/-- What follows the last token starts no level. -/
theorem Follows.indent_bind {f g : Bool → Parser β} (hsome : Covers S bound shift (f true) (g true))
    (hnone : Covers S (bound + 1) shift (f false) (g false)) :
    Covers S (bound + 1) shift (Parser.accept .indent >>= f) (Parser.accept .indent >>= g) := by
  rw [accept_bind_eq, accept_bind_eq]
  refine peek_bind (fun _ t _ => t.kind) fun {ts us} hlength _ htokens => ⟨_, fun _ => rfl, ?_⟩
  have hnone := hnone.run hlength trivial htokens
  by_cases hts : S.Within ts
  · obtain ⟨u, hu, hfront⟩ := htokens.front
    have hkind : seen (fun _ t _ => t.kind) S.right (us ++ S.more) =
        seen (fun _ t _ => t.kind) S.left ts := (congrArg Token.kind (hfront hts)).trans (S.kind hu)
    rw [hkind]
    split
    · next hindent =>
      have hinner : (ts.headD S.left.ending.token).kind.isInner := by
        change (seen (fun _ t _ => t.kind) S.left ts).isInner
        rw [hindent]
        rfl
      have hadvance : S.Leads True id Parser.advance Parser.advance ts us := .advance htokens hinner
      refine hadvance.bind .inl fun ha => ?_
      have hlt := advance_strict (fun _ => id) _ _ _ _ S.ended hinner ha
      exact hsome.run (by omega) trivial
    · exact hnone
  · obtain ⟨hloose, rfl⟩ := S.eq_nil_of_not hts
    cases htokens
    change S.Leads True shift (if S.left.ending.token.kind = _ then _ else _)
      (if (S.more.headD S.right.ending.token).kind = _ then _ else _) [] []
    rwa [S.eof hloose, if_neg TokenKind.noConfusion, if_neg (S.follow hloose).1]

theorem Follows.indented (hitem : Tracks S bound (· ≠ .dedent) move p q)
    (hstrict : p.Strict (· ≠ .dedent)) :
    Covers S (bound + 1) (map move) (Parser.indented p) (Parser.indented q) := by
  have hitems : Tracks S bound anyKind (map move) (Parser.many (·.kind ≠ .dedent) p)
      (Parser.many (·.kind ≠ .dedent) q) :=
    .many (S.more_of_kind fun k => decide (k ≠ .dedent)) (fun t ht => of_decide_eq_true ht) hitem
      hstrict
  refine .indent_bind (hitems.closes fun items => ?_).toFollows (.pure rfl)
  exact .expect_then rfl (.pure rfl)

end Parser
end Stencil
