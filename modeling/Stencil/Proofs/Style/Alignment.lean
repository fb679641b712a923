import Stencil.Proofs.Expr.Alignment

/-!
# Style blocks at another place

The readers of parameters and of style blocks do the same at another place.
-/
namespace Stencil

open Stencil.Parser List

variable {S : Relocation} {bound : Nat} {K : TokenKind → Prop}

/-! ## Parameters -/

namespace Param

def down (lines : Nat) (p : Param) : Param := { p with position := p.position.down lines }

variable {k : TokenKind}

theorem parser_tracks (hk : k.isSpelled) :
    Tracks S bound (· = k) (down S.lines) (Param.parser k) (Param.parser k) := by
  refine .here_bind_of_ne (by rintro _ rfl rfl; cases hk) fun p =>
    .expect_bind (isInner_of_isSpelled hk) ?_
  intro t u htoken hkind
  rw [S.literal htoken (hkind ▸ hk)]
  refine (Follows.accept rfl).bind fun found => .ite (fun _ => ?_) fun _ => .pure rfl
  refine .expect_bind rfl fun {s v} hstring hkind => ?_
  rw [S.literal hstring (by rw [hkind]; rfl)]
  exact .pure rfl

theorem listParser_tracks (hk : k.isSpelled) :
    Tracks S bound K (map (down S.lines)) (listParser k) (listParser k) := by
  refine (Follows.accept rfl).bind fun found => .ite (fun _ => ?_) fun _ => .pure rfl
  refine (Follows.commaList (S.more_of_kind fun k' => decide (k' = k))
    (fun t ht => of_decide_eq_true ht) (parser_tracks hk)).bind fun params => ?_
  exact .expect_then rfl (.pure rfl)

end Param

/-! ## Selectors -/

namespace Selector

theorem groupRest_tracks (depth : Nat) :
    Tracks S bound anyKind id (bounded fun rounds => groupRest rounds depth)
      (bounded fun rounds => groupRest rounds depth) := by
  refine Follows.loop Eq (fun _ _ => rfl) (fun _ _ => rfl) ?_ rfl
  rintro less rounds before later hless ih depth _ rfl
  refine .kind_bind fun k => ?_
  split
  case h_2 => exact .advance (isInner_front rfl)
  case h_4 | h_5 => exact .expected _
  case h_6 heof herror _ _ =>
    have hinner : k.isInner := by
      cases k with
      | eof => exact (heof rfl).elim
      | error => exact (herror rfl).elim
      | _ => rfl
    exact .advance_bind (isInner_front hinner) (ih rfl)
  all_goals exact .advance_bind (isInner_front rfl) (ih rfl)

theorem classSuffix_tracks : Tracks S bound (· = .dot) id classSuffix classSuffix := by
  have hgroup : Tracks S bound anyKind id skipGroup skipGroup := .expect_then rfl (groupRest_tracks 0)
  refine (Follows.advance (by rintro _ rfl; rfl)).bind fun _ => .expect_bind rfl ?_
  intro t u htoken hkind
  rw [S.literal htoken (by rw [hkind]; rfl)]
  refine (Follows.accept rfl).bind fun found => .ite (fun _ => ?_) fun _ => .pure rfl
  exact hgroup.bind fun _ => .pure rfl

theorem classSuffix_strict : classSuffix.Strict (· = .dot) :=
  (advance_strict (by rintro _ rfl; rfl)).bind

/-- A colon and a word after it. -/
def isState (_ : String) (t u : Token) : Bool := t.kind = .colon && u.kind = .styleWord

/-- What follows the last token is no state. -/
theorem isState_eq {ts us : List Token} (htokens : S.Tokens ts us) (hts : S.Within ts) :
    seen isState S.right (us ++ S.more) = seen isState S.left ts := by
  obtain ⟨u, hu, hfront⟩ := htokens.front
  unfold seen isState
  rw [hfront hts, S.kind hu]
  by_cases hcolon : (ts.headD S.left.ending.token).kind = .colon
  swap
  · rw [decide_eq_false hcolon, Bool.false_and, Bool.false_and]
  obtain ⟨t, v, ts, us, rfl, rfl, hlater⟩ := htokens.inner (hcolon ▸ rfl)
  refine congrArg (_ && ·) (decide_eq_decide.mpr ?_)
  change ((us ++ S.more).headD S.right.ending.token).kind = _ ↔ (ts.headD S.left.ending.token).kind = _
  obtain ⟨w, hw, hsecond⟩ := hlater.front
  by_cases htail : S.Within ts
  · rw [hsecond htail, S.kind hw]
  · obtain ⟨hloose, rfl⟩ := S.eq_nil_of_not htail
    cases hlater
    rw [headD_nil, S.eof hloose]
    exact iff_of_false (S.follow hloose).2 TokenKind.noConfusion

theorem stateSuffix_tracks : Tracks S bound K id stateSuffix stateSuffix := by
  let word : Parser String := do let t ← current; advance; return t.literal
  have heq : stateSuffix = peek isState >>= fun found => if found then advance >>= fun _ => word
    else pure "" := rfl
  have hword : Tracks S bound (· = .styleWord) id word word := by
    refine .current_bind fun {t u} htoken => ?_
    by_cases hkind : t.kind = .styleWord
    · have hspelled : t.kind.isSpelled := hkind ▸ rfl
      rw [S.literal htoken hspelled]
      exact (Follows.advance_spelled hspelled).bind fun _ => .pure rfl
    · exact ⟨fun _ hhead => absurd (hhead.1.symm.trans hhead.2) hkind⟩
  rw [heq]
  refine .peek_bind isState fun {ts us} hlength _ htokens =>
    ⟨seen isState S.left ts, fun h => isState_eq htokens (h.resolve_left id), ?_⟩
  cases hseen : seen isState S.left ts with
  | false => exact .pure rfl htokens
  | true =>
    obtain ⟨hcolon, hstate⟩ := Bool.and_eq_true_iff.mp hseen
    have hinner : (ts.headD S.left.ending.token).kind.isInner := of_decide_eq_true hcolon ▸ rfl
    have hadvance : S.Leads False id advance advance ts us := .advance htokens hinner
    refine hadvance.bind .inl fun ha hmiddle => ?_
    have hle := advance.suffix ha
    cases ha
    exact hword.run (Nat.lt_of_le_of_lt hle.length_le hlength) (of_decide_eq_true hstate) hmiddle

theorem parser_tracks : Tracks S bound K id Selector.parser Selector.parser := by
  refine .current_bind fun {t u} htoken => ?_
  extract_lets named
  have hnamed : ∀ x, Tracks S bound anyKind id (named x) (named x) := by
    intro x
    have hsuffixes : Tracks S bound anyKind (map id) (many (·.kind = .dot) classSuffix)
        (many (·.kind = .dot) classSuffix) :=
      .many (S.more_of_kind fun k => decide (k = .dot)) (fun _ ht => of_decide_eq_true ht)
        classSuffix_tracks classSuffix_strict
    refine hsuffixes.bind fun suffixes => ?_
    rw [map_id]
    exact .ite (fun _ => .expected _) fun _ => stateSuffix_tracks.bind fun _ => .pure rfl
  rw [S.kind htoken]
  refine .ite (fun hkind => ?_) fun _ => ?_
  · have hspelled : t.kind.isSpelled := hkind ▸ rfl
    rw [S.literal htoken hspelled]
    exact (Follows.advance_spelled hspelled).bind fun _ => hnamed _
  · exact .pure_bind ((hnamed ("", [])).restrict fun _ _ => trivial)

end Selector

/-! ## Properties and rules -/

theorem Property.valueFrom_tracks (glued : Bool) :
    Tracks S bound anyKind id (bounded fun rounds => valueFrom rounds glued)
      (bounded fun rounds => valueFrom rounds glued) := by
  refine Follows.loop Eq (fun _ _ => rfl) (fun _ _ => rfl) ?_ rfl
  rintro less rounds before later hless ih glued _ rfl
  have hlater : ∀ {front front' : String} (glued : Bool), front' = front → Tracks S less anyKind id
      (do return front ++ (← again before (valueFrom rounds glued)))
      (do return front' ++ (← later glued)) := by
    rintro front _ glued rfl
    exact (ih rfl).bind fun _ => .pure rfl
  refine .current_bind fun {t u} htoken => ?_
  extract_lets gap
  rw [S.kind htoken]
  split
  case h_1 heq | h_2 heq | h_3 heq =>
    have hword : u.literal = t.literal := S.literal htoken (by rw [heq]; rfl)
    refine .advance_bind (isInner_front (heq ▸ rfl)) ?_
    refine (Follows.accept rfl).bind fun found => .ite (fun _ => ?_) fun _ => ?_
    · refine (ih rfl).bind fun inner => .expect_then rfl ?_
      exact hlater false (congrArg (gap ++ · ++ "(" ++ inner ++ ")") hword)
    · exact hlater false (congrArg (gap ++ ·) hword)
  case h_4 heq => exact .advance_bind (isInner_front (heq ▸ rfl)) (hlater false rfl)
  case h_5 heq | h_6 heq | h_7 heq =>
    exact .advance_bind (isInner_front (heq ▸ rfl)) (hlater true rfl)
  case h_8 => exact .pure rfl

theorem Property.parser_tracks : Tracks S bound K id Property.parser Property.parser := by
  refine .current_bind fun {t u} htoken => ?_
  rw [S.kind htoken]
  refine .ite (fun hkind => ?_) fun _ => .expected _
  have hspelled : t.kind.isSpelled := hkind ▸ rfl
  rw [S.literal htoken hspelled]
  refine (Follows.advance_spelled hspelled).bind fun _ => .expect_then rfl ?_
  exact (valueFrom_tracks true).bind fun value => .expect_then rfl (.pure rfl)

namespace Rule

def down (lines : Nat) (r : Rule) : Rule := { r with position := r.position.down lines }

theorem parser_tracks :
    Tracks S bound (· ≠ .dedent) (down S.lines) Rule.parser Rule.parser := by
  refine .here_bind_of_ne (fun _ h => h) fun p => ?_
  refine (Follows.commaList1 Selector.parser_tracks).bind fun selectors => ?_
  rw [map_id]
  refine (Follows.accept rfl).bind fun _ => .expect_then rfl ?_
  have hproperties : Covers S (bound + 1) (map id) (indented Property.parser)
      (indented Property.parser) := .indented Property.parser_tracks Property.parser_settles.strict
  refine (hproperties.mono (Nat.le_succ _)).tracks.bind fun properties => .pure ?_
  rw [map_id]
  rfl

end Rule

namespace StyleBlock

def down (lines : Nat) (b : StyleBlock) : StyleBlock where
  params := b.params.map (Param.down lines)
  rules := b.rules.map (Rule.down lines)
  position := b.position.down lines

theorem parser_closes (position : Position) :
    Closes S bound (down S.lines) (StyleBlock.parser position)
      (StyleBlock.parser (position.down S.lines)) := by
  have hrules : Covers S (bound + 1) (map (Rule.down S.lines)) (indented Rule.parser)
      (indented Rule.parser) := .indented Rule.parser_tracks Rule.parser_settles.strict
  refine (Param.listParser_tracks rfl).closes fun params => Closes.headingEnd.bind fun _ => ?_
  exact (hrules.mono (Nat.le_succ _)).bind fun _ => .pure rfl

end StyleBlock
end Stencil
