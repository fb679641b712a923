import Stencil.Proofs.Script.Places

/-!
# The text of code determines its tree

Reading the text that is printed for a tree gives the tree back, less the default values of its
parameters, which are never printed. The width of the margins plays no part.

There is one lemma for each way to build an expression or a statement: if the parts are read back at
their places, so is the whole.
-/
namespace Stencil.Script.Reader

open List Bool Option Grammar Level
open Script.Expr (bare pieces shown)

variable {width : Nat} {body : List Stmt} {t : List Char}

namespace Reads

theorem of_string (value : String) : Reads width (.string value) := by
  refine chain_of_front (c := '"') (by decide) (by decide) (by decide) fun depth s =>
    ⟨quoteBody value.toList ++ '"' :: s, ?_, fun _ negation => ?_⟩
  · simp [bare, pieces, toList_quote]
  · rw [operand, skip_cons (by decide) (by decide)]
    simp only [literal_quoteBody, bind_eq_bind, bind_some, String.ofList_toList]
    rfl

theorem of_number {digits : String} (h : isNumeral digits) :
    Reads width (.number digits) := by
  obtain ⟨c, t, hc, hdigit⟩ := isNumeral_cases h
  have hne {d : Char} (hd : Text.isDigit d = false) : c ≠ d := by
    rintro rfl
    rw [hdigit] at hd
    cases hd
  have hsp := @hne ' ' (by decide)
  have hnl := @hne '\n' (by decide)
  refine chain_of_front hsp hnl (hne (by decide)) fun depth s => ⟨t ++ s, ?_, ?_⟩
  · simp [bare, pieces, hc]
  · intro hs negation
    have hpart : isNamePart c := by simp [isNamePart, hdigit]
    have hnum := number_numeral h hs
    rw [hc, cons_append] at hnum
    rw [operand_plain (skip_cons hsp hnl _) hpart, if_pos hdigit, hnum, ← hc, String.ofList_toList]
    rfl

variable {s : List Char} {name : String} {x l r : Expr} {xs : List Expr} {ps : List (String × Expr)}
  {op : Operator}

theorem of_name (h : isFreeName name) : Reads width (.name name) := by
  obtain ⟨hname, hfree⟩ := isFreeName_iff.mp h
  have bare : ∀ depth, (Expr.name name).bare width depth = name.toList := by
    intro depth
    simp [bare, pieces]
  have hnew : name ≠ "new" := by rintro rfl; exact hfree (by decide)
  have hfunction : name ≠ "function" := by rintro rfl; exact hfree (by decide)
  apply chain_level
  · intro depth s hs _ t f r hword _
    rw [bare, skip_name hname, word_name hname hs] at hword
    exact absurd (Prod.mk.inj hword).1 hfunction
  · intro depth negation s hs
    rw [bare, operand_word hname hs, wordOperand, if_neg hnew, if_neg hfunction, if_neg hfree]
    rfl

/-- A name behind a dot is no number. -/
theorem clear_dot (h : isName name) (s : List Char) :
    clear ('.' :: (name.toList ++ s)) := by
  obtain ⟨c, t, hc, hstart, _⟩ := isName_cases h
  simp [hc, clear, (isNameStart_ne hstart).2.2]

theorem of_attribute (hx : Reads width x) (h : isFreeName name) :
    Reads width (.attribute x name) := by
  obtain ⟨hname, _⟩ := isFreeName_iff.mp h
  refine chain_of_suffix hx fun depth s =>
    ⟨'.' :: (name.toList ++ s), ?_, clear_dot hname s, by simp, ?_⟩
  · simp [bare, shown, pieces, rank]
  · intro hs
    rw [suffixes, skip_cons (by decide) (by decide)]
    simp only [skip_name hname, identifier_name hname hs, bind_eq_bind, bind_some]
    rfl

theorem of_item {index : Expr} (hx : Reads width x) (hindex : Reads width index) :
    Reads width (.item x index) := by
  refine chain_of_suffix hx fun depth s =>
    ⟨'[' :: (index.bare width depth ++ ']' :: s), ?_, rfl, by simp, ?_⟩
  · simp [bare, shown, pieces, rank]
  · intro _
    have hin := @inside _ _ (']' :: s) hindex depth rfl rfl
    rw [suffixes, skip_cons (by decide) (by decide)]
    simp only [hin, bind_eq_bind, bind_some]
    rfl

/-- One property and what is read behind it. -/
theorem properties_property (name : String) {t : List Char} (hin : script.expr 0 s = some (x, t)) :
    script.properties ((propertyName name).toList ++ ':' :: ' ' :: s) =
      match skip t with
      | '}' :: s => some ([(name, x)], s)
      | ',' :: s => (script.properties s).bind fun (ps, s) => some ((name, x) :: ps, s)
      | _ => none := by
  have hkey := key_propertyName name (' ' :: s)
  have hcolon : symbol ':' (':' :: ' ' :: s) = some (' ' :: s) := rfl
  generalize (propertyName name).toList ++ ':' :: ' ' :: s = text at hkey
  rw [properties]
  split
  · next r hr =>
    rw [key, hr] at hkey
    cases hkey
  · simp only [hkey, hcolon, bind_eq_bind, bind_some]
    rw [expr_congr (skip_space s), hin]
    rfl

section Items

variable {closing : Char} {t : List Char} (hclosing : closing = ')' ∨ closing = ']')

include hclosing

/-- The only item that is left. -/
theorem items_last (hin : script.expr 0 s = some (x, closing :: t)) :
    script.items closing s = some ([x], t) := by
  obtain ⟨c, u, hskip, hparen, hsquare, -⟩ := expr_front hin
  rw [items, hskip]
  rcases hclosing with rfl | rfl
  · simp only [hparen, hin, if_false, bind_eq_bind, bind_some]
    rfl
  · simp only [hsquare, hin, if_false, bind_eq_bind, bind_some]
    rfl

/-- An item in front of others. -/
theorem items_more (hin : script.expr 0 s = some (x, ',' :: t)) {u : List Char}
    (hrest : script.items closing t = some (xs, u)) :
    script.items closing s = some (x :: xs, u) := by
  obtain ⟨c, v, hskip, hparen, hsquare, -⟩ := expr_front hin
  have hcomma : skip (',' :: t) = ',' :: t := skip_cons (by decide) (by decide) t
  rw [items, hskip]
  rcases hclosing with rfl | rfl
  · simp only [hparen, hin, hcomma, if_false, bind_eq_bind, bind_some, hrest]
    rfl
  · simp only [hsquare, hin, hcomma, if_false, bind_eq_bind, bind_some, hrest]
    rfl

end Items

/-- Arguments are read back in order. -/
theorem arguments_read (h : ∀ x ∈ xs, Reads width x) (depth : Nat) (s : List Char) :
    script.items ')' (layout width (argumentPieces depth xs) ++ ')' :: s) =
      some (eraseItems xs, s) := by
  induction xs with
  | nil =>
    rw [argumentPieces, items]
    rfl
  | cons x xs ih =>
    have hx := h x mem_cons_self
    have hxs := ih fun y hy => h y (mem_cons_of_mem x hy)
    cases xs with
    | nil => exact items_last (.inl rfl) (hx.shown_inside (by decide) depth rfl rfl)
    | cons y ys =>
      generalize hrest : layout width (argumentPieces depth (y :: ys)) ++ ')' :: s = rest at hxs
      have htext : layout width (argumentPieces depth (x :: y :: ys)) ++ ')' :: s =
          x.shown width depth 2 ++ ',' :: ' ' :: rest := by
        simp [argumentPieces, shown, rank, ← hrest]
      rw [htext]
      exact items_more (.inl rfl) (hx.shown_inside (by decide) depth rfl rfl)
        ((items_congr (skip_space rest) _).trans hxs)

/-- Items on lines of their own are read back in order. -/
theorem items_read (h : ∀ x ∈ xs, Reads width x) (depth margin : Nat) (s : List Char) :
    script.items ']'
      (layout width (itemPieces depth xs) ++ (replicate margin ' ' ++ ']' :: s)) =
      some (eraseItems xs, s) := by
  induction xs with
  | nil =>
    rw [itemPieces, items, Layout.nil, nil_append, skip_margin]
    rfl
  | cons x xs ih =>
    have hx := h x mem_cons_self
    have hxs := ih fun y hy => h y (mem_cons_of_mem x hy)
    generalize hrest : layout width (itemPieces depth xs) ++
      (replicate margin ' ' ++ ']' :: s) = rest at hxs
    have htext : layout width (itemPieces depth (x :: xs)) ++
        (replicate margin ' ' ++ ']' :: s) =
        replicate (depth * width) ' ' ++ (x.shown width depth 2 ++ ',' :: '\n' :: rest) := by
      simp [itemPieces, shown, rank, ← hrest]
    rw [htext, items_congr (skip_margin _ _)]
    exact items_more (.inr rfl) (hx.shown_inside (by decide) depth rfl rfl)
      ((items_congr (skip_newline rest) _).trans hxs)

/-- Properties on lines of their own are read back in order. -/
theorem properties_read (h : ∀ p ∈ ps, Reads width p.2) (depth margin : Nat) (s : List Char) :
    script.properties (layout width (propertyPieces depth ps) ++
      (replicate margin ' ' ++ '}' :: s)) = some (eraseProperties ps, s) := by
  induction ps with
  | nil =>
    rw [propertyPieces, properties, Layout.nil, nil_append, skip_margin]
    rfl
  | cons p ps ih =>
    obtain ⟨name, x⟩ := p
    have hx : Reads width x := h (name, x) mem_cons_self
    have hps := ih fun q hq => h q (mem_cons_of_mem _ hq)
    generalize hrest : layout width (propertyPieces depth ps) ++
      (replicate margin ' ' ++ '}' :: s) = rest at hps
    have hin := @shown_inside width 2 x (',' :: '\n' :: rest) hx (by decide) depth rfl rfl
    have htext : layout width (propertyPieces depth ((name, x) :: ps)) ++
        (replicate margin ' ' ++ '}' :: s) =
        replicate (depth * width) ' ' ++ ((propertyName name).toList ++
          ':' :: ' ' :: (x.shown width depth 2 ++ ',' :: '\n' :: rest)) := by
      simp [propertyPieces, shown, rank, ← hrest]
    rw [htext, properties_congr (skip_margin _ _), properties_property name hin,
      skip_cons (by decide) (by decide)]
    simp [properties_congr (skip_newline rest), hps, eraseProperties]

theorem of_call {f : Expr} (hf : Reads width f) (hxs : ∀ x ∈ xs, Reads width x) :
    Reads width (.call f xs) := by
  refine chain_of_suffix hf fun depth s =>
    ⟨'(' :: (layout width (argumentPieces depth xs) ++ ')' :: s), ?_, rfl, by simp, ?_⟩
  · simp [bare, shown, pieces, rank]
  · intro _
    rw [suffixes, skip_cons (by decide) (by decide)]
    simp only [arguments_read hxs, bind_eq_bind, bind_some]
    rfl

theorem of_list (hxs : ∀ x ∈ xs, Reads width x) : Reads width (.list xs) := by
  have items : ∀ depth s, ∃ t, (Expr.list xs).bare width depth ++ s = '[' :: t ∧
      script.items ']' t = some (eraseItems xs, s) := by
    intro depth s
    rcases xs with _ | ⟨x, _ | ⟨y, ys⟩⟩
    · refine ⟨']' :: s, by simp [bare, pieces], ?_⟩
      rw [items]
      rfl
    · refine ⟨x.shown width depth 2 ++ ']' :: s, ?_, ?_⟩
      · simp [bare, shown, pieces, rank]
      · exact items_last (.inr rfl)
          ((hxs x mem_cons_self).shown_inside (by decide) depth rfl rfl)
    · refine ⟨'\n' :: (layout width (itemPieces (depth + 1) (x :: y :: ys)) ++
        (replicate (depth * width) ' ' ++ ']' :: s)), ?_, ?_⟩
      · simp [bare, pieces]
      · rw [items_congr (skip_newline _), items_read hxs]
  refine chain_of_front (c := '[') (by decide) (by decide) (by decide) fun depth s => ?_
  obtain ⟨t, ht, hitems⟩ := items depth s
  refine ⟨t, ht, fun _ negation => ?_⟩
  rw [operand, skip_cons (by decide) (by decide)]
  simp only [hitems, bind_eq_bind, bind_some]
  rfl

theorem of_object (hps : ∀ p ∈ ps, Reads width p.2) : Reads width (.object ps) := by
  have read : ∀ depth s, ∃ t, (Expr.object ps).bare width depth ++ s = '{' :: t ∧
      script.properties t = some (eraseProperties ps, s) := by
    intro depth s
    rcases ps with _ | ⟨⟨name, x⟩, _ | ⟨q, qs⟩⟩
    · refine ⟨'}' :: s, by simp [bare, pieces], ?_⟩
      rw [properties]
      rfl
    · have hx : Reads width x := hps (name, x) mem_cons_self
      have hin := @shown_inside width 2 x ('}' :: s) hx (by decide) depth rfl rfl
      refine ⟨(propertyName name).toList ++ ':' :: ' ' :: (x.shown width depth 2 ++ '}' :: s),
        ?_, ?_⟩
      · simp [bare, shown, pieces, rank]
      · rw [properties_property name hin, skip_cons (by decide) (by decide)]
        rfl
    · refine ⟨'\n' :: (layout width (propertyPieces (depth + 1) ((name, x) :: q :: qs)) ++
        (replicate (depth * width) ' ' ++ '}' :: s)), ?_, ?_⟩
      · simp [bare, pieces]
      · rw [properties_congr (skip_newline _), properties_read hps]
  refine chain_of_front (c := '{') (by decide) (by decide) (by decide) fun depth s => ?_
  obtain ⟨t, ht, hread⟩ := read depth s
  refine ⟨t, ht, fun _ negation => ?_⟩
  rw [operand, skip_cons (by decide) (by decide)]
  simp only [hread, bind_eq_bind, bind_some]
  rfl

theorem of_new (hx : Reads width x) : Reads width (.new x) := by
  have bare : ∀ depth s, (Expr.new x).bare width depth ++ s =
      "new".toList ++ ' ' :: (x.shown width depth 17 ++ s) := by
    intro depth s
    simp [bare, shown, pieces, rank]
  refine new_level (fun depth s _ _ => ?_) rfl fun depth negation s hs h7 => ?_
  · rw [bare]
    exact unbroken_of_front (by decide) (by decide) (by decide) _
  · rw [bare, operand_word (by decide) rfl, wordOperand, if_pos rfl, operand_congr (skip_space _),
      hx.shown_new (by decide) (by decide) depth false hs h7]
    rfl

theorem of_not (hx : Reads width x) : Reads width (.not x) := by
  have bare : ∀ depth s, (Expr.not x).bare width depth ++ s =
      '!' :: (x.shown width depth 14 ++ s) := by
    intro depth s
    simp [bare, shown, pieces, rank]
  refine unary_level (fun depth s _ _ => ?_) rfl fun depth s hs h7 => ?_
  · rw [bare]
    exact unbroken_of_front (by decide) (by decide) (by decide) _
  · have hread := @shown_unary width 14 x s hx (by decide) (by decide) depth hs h7
    rw [bare, operand, skip_cons (by decide) (by decide)]
    simp only [hread, if_true, bind_eq_bind, bind_some]
    rfl

/-- Two operands around a joint. The left one is read up to the joint, the right one as far as what
clings to it tighter than the joint. -/
theorem of_joint {e : Expr} {mark : List Char} {leftRank rightRank : Nat}
    (bare : ∀ depth s, e.bare width depth ++ s = l.shown width depth leftRank ++
      ' ' :: (mark ++ ' ' :: (r.shown width depth rightRank ++ s)))
    (hl : Reads width l) (hr : Reads width r) {j : Joint}
    (hmark : ∀ t, Joint.front (skip (mark ++ ' ' :: t)) = some (j, ' ' :: t))
    (hright : j.rightStrength = j.strength + 1) (hjoin : j.join l.erase r.erase = some e.erase)
    (hjoint : e.level.isJoint) (hgrip : e.level.grip = j.strength)
    (hleftRank : e.level.rank ≤ leftRank) (hrightRank : e.level.rank + 1 ≤ rightRank)
    (hleft20 : leftRank ≤ 20) (hright20 : rightRank ≤ 20) : Reads width e := by
  obtain ⟨hlevel, hhold, hgrip7⟩ : e.level.rank ≤ 12 ∧ e.level.hold = e.level.grip ∧
      e.level.grip ≤ 7 := by
    revert hjoint
    cases e.level <;> decide
  refine joint_level (fun depth s _ _ => ?_) hlevel fun depth least s hs hleast hf h7 => ?_
  · rw [bare]
    exact hl.shown_unbroken hleft20 depth rfl (by simp)
  · have hfront := hmark (r.shown width depth rightRank ++ s)
    have hcling : follow (' ' :: (mark ++ ' ' :: (r.shown width depth rightRank ++ s))) =
        e.level.grip := by
      rw [hgrip]
      exact follow_of_front (by rw [skip_space, hfront])
    rw [hhold] at hf
    have hread : script.expr (j.strength + 1) (' ' :: (r.shown width depth rightRank ++ s)) =
        some (r.erase, s) := by
      rw [expr_congr (skip_space _), ← hgrip,
        hr.shown_whole hright20 depth hs ((Fits.right hjoint _ hf).mono hrightRank) h7]
      exact climb_stop _ (Or.inl (by omega))
    rw [bare, hl.shown_whole hleft20 depth rfl
      (hcling ▸ (Fits.left hjoint _ hleast).mono hleftRank) (by omega), climb, skip_space,
      hfront]
    have hstrong : ¬ j.strength < least := by omega
    simp only [hstrong, if_false, hright, hread, hjoin, bind_eq_bind, bind_some]

theorem of_and (hl : Reads width l) (hr : Reads width r) : Reads width (.and l r) := by
  have bare : ∀ depth s, (Expr.and l r).bare width depth ++ s =
      l.shown width depth 5 ++ ' ' :: ("&&".toList ++ ' ' :: (r.shown width depth 6 ++ s)) := by
    intro depth s
    simp [bare, shown, pieces, rank]
  exact of_joint bare hl hr (j := .and) (fun _ => rfl) rfl rfl rfl rfl (Nat.le_refl 5)
    (Nat.le_refl 6) (by decide) (by decide)

theorem orRank_le {rank : Nat} (h : rank ≤ 20) (e : Expr) :
    rank ≤ e.orRank rank ∧ e.orRank rank ≤ 20 := by
  unfold Expr.orRank
  split
  · exact ⟨h, by decide⟩
  · exact ⟨Nat.le_refl _, h⟩

theorem of_or (hl : Reads width l) (hr : Reads width r) : Reads width (.or l r) := by
  obtain ⟨hleft, hleft20⟩ := orRank_le (show 4 ≤ 20 by decide) l
  obtain ⟨hright, hright20⟩ := orRank_le (show 5 ≤ 20 by decide) r
  have bare : ∀ depth s, (Expr.or l r).bare width depth ++ s =
      l.shown width depth (l.orRank 4) ++
        ' ' :: ("||".toList ++ ' ' :: (r.shown width depth (r.orRank 5) ++ s)) := by
    intro depth s
    simp [bare, shown, pieces, rank]
  exact of_joint bare hl hr (j := .or) (fun _ => rfl) rfl rfl rfl rfl hleft hright hleft20 hright20

/-- The joint that an operator is read as. -/
def jointOf : Operator → Joint
  | .arith op => .arith op
  | .relation op => .relation op
  | .otherArith | .otherRelation => .assign

theorem front_symbol (h : op.isKnown) (t : List Char) :
    Joint.front (skip (op.symbol.toList ++ ' ' :: t)) = some (jointOf op, ' ' :: t) := by
  cases op with
  | arith op => cases op <;> rfl
  | relation op => cases op <;> rfl
  | otherArith | otherRelation => cases h

/-- The strengths of the reader are in the order of the levels. -/
theorem level_operator (h : op.isKnown) :
    op.level.isJoint ∧ op.level.grip = (jointOf op).strength ∧
      (jointOf op).rightStrength = (jointOf op).strength + 1 ∧ op.level.rank ≤ 12 := by
  cases op with
  | arith op => cases op <;> decide
  | relation op => cases op <;> decide
  | otherArith | otherRelation => cases h

theorem of_operation (hop : op.isKnown) (hl : Reads width l) (hr : Reads width r) :
    Reads width (.operation op l r) := by
  obtain ⟨hjoint, hgrip, hright, hrank⟩ := level_operator hop
  have bare : ∀ depth s, (Expr.operation op l r).bare width depth ++ s =
      l.shown width depth op.level.rank ++ ' ' :: (op.symbol.toList ++
        ' ' :: (r.shown width depth (op.level.rank + 1) ++ s)) := by
    intro depth s
    simp [bare, shown, pieces]
  have hjoin : (jointOf op).join l.erase r.erase = some (Expr.operation op l r).erase := by
    cases op with
    | arith op | relation op => rfl
    | otherArith | otherRelation => cases hop
  exact of_joint bare hl hr (front_symbol hop) hright hjoin hjoint hgrip (Nat.le_refl _)
    (Nat.le_refl _) (by omega) (by omega)

theorem of_assign {v : Expr} (hx : Reads width x) (hname : isFreeName name)
    (hv : Reads width v) : Reads width (.assign x name v) := by
  obtain ⟨hname, _⟩ := isFreeName_iff.mp hname
  have bare : ∀ depth s, (Expr.assign x name v).bare width depth ++ s =
      x.shown width depth 18 ++
        '.' :: (name.toList ++ ' ' :: '=' :: ' ' :: (v.shown width depth 2 ++ s)) := by
    intro depth s
    simp [bare, shown, pieces, rank]
  refine joint_level (fun depth s _ _ => ?_) (by simp [Expr.level, rank])
    fun depth least s hs hleast hf h7 => ?_
  · rw [bare]
    exact hx.shown_unbroken (by decide) depth (clear_dot hname _) (by simp)
  · -- The target is read as an attribute, and the joint behind it turns it into an assignment.
    have hzero : follow s = 0 := Nat.le_zero.mp hf
    have hvalue : script.expr 1 (' ' :: (v.shown width depth 2 ++ s)) = some (v.erase, s) := by
      rw [expr_congr (skip_space _), hv.shown_whole (by decide) depth hs ?_ h7]
      · exact climb_stop _ (Or.inr hzero)
      · rw [hzero]
        cases v.level <;> simp [Fits, rank, grip]
    have hfront : Joint.front ('=' :: ' ' :: (v.shown width depth 2 ++ s)) =
        some (.assign, ' ' :: (v.shown width depth 2 ++ s)) := rfl
    have htarget : script.operand true ((Expr.assign x name v).bare width depth ++ s) =
        some (.attribute x.erase name, ' ' :: '=' :: ' ' :: (v.shown width depth 2 ++ s)) := by
      rw [bare, hx.shown_chain (by decide) (by decide) depth true (clear_dot hname _),
        suffixes, skip_cons (by decide) (by decide)]
      simp only [skip_name hname, identifier_name hname (s := ' ' :: _) rfl, bind_eq_bind,
        bind_some]
      exact suffixes_stop _ (by rw [follow_of_front (by rw [skip_space]; exact hfront)]; decide)
    have hstrong : ¬ Joint.assign.strength < least := Nat.not_lt.mpr hleast
    rw [expr, htarget]
    simp only [bind_eq_bind, bind_some]
    rw [climb, skip_space, skip_cons (by decide) (by decide), hfront]
    simp only [hstrong, if_false, Joint.rightStrength, hvalue, Joint.join, bind_eq_bind,
      bind_some]
    rfl

theorem of_ternary {c t e : Expr} (hc : Reads width c) (ht : Reads width t)
    (he : Reads width e) : Reads width (.ternary c t e) := by
  refine chain_of_front (c := '(') (by decide) (by decide) (by decide) fun depth s =>
    ⟨'(' :: (c.bare width depth ++ ')' :: '?' :: '(' :: (t.bare width depth ++
      ')' :: ':' :: '(' :: (e.bare width depth ++ ')' :: ')' :: s))), ?_, fun _ negation => ?_⟩
  · simp [bare, pieces, rank]
  · have hopen : ∀ r, symbol '(' ('(' :: r) = some r := fun _ => rfl
    have hcolon : ∀ r, symbol ':' (':' :: r) = some r := fun _ => rfl
    have hclose : ∀ r, symbol ')' (')' :: r) = some r := fun _ => rfl
    rw [operand_parenthesis (skip_cons (by decide) (by decide) _), parenthesis,
      skip_cons (by decide) (by decide)]
    simp only [hc.group, bind_eq_bind, bind_some]
    rw [skip_cons (by decide) (by decide)]
    simp only [hopen, hcolon, hclose, ht.group, he.group, bind_some]
    rfl

end Reads

/-- What reading the lines of one statement comes to. -/
def StmtReads (width : Nat) (st : Stmt) : Prop :=
  ∀ depth s, script.statements (layout width (st.pieces depth) ++ s) =
    (script.statements s).bind fun (rest, r) => some (st.erase :: rest, r)

theorem body_reads (h : ∀ st ∈ body, StmtReads width st) (depth : Nat) (s : List Char) :
    script.statements (layout width (bodyPieces depth body) ++ s) =
      (script.statements s).bind fun (rest, r) => some (eraseBody body ++ rest, r) := by
  induction body with
  | nil =>
    change script.statements s = _
    cases script.statements s <;> rfl
  | cons st body ih =>
    have hst := h st mem_cons_self depth
    have hbody := ih fun t ht => h t (mem_cons_of_mem st ht)
    rw [bodyPieces, Layout.append, append_assoc, hst, hbody]
    cases script.statements s <;> rfl

theorem statements_close (s : List Char) : script.statements ('}' :: s) = some ([], '}' :: s) := by
  rw [statements, skip_cons (by decide) (by decide)]
  rfl

/-- The body of a function ends at its closing brace. -/
theorem body_reads_closed (h : ∀ st ∈ body, StmtReads width st) (depth margin : Nat)
    (s : List Char) :
    script.statements ('\n' :: (layout width (bodyPieces depth body) ++
      (replicate margin ' ' ++ '}' :: s))) = some (eraseBody body, '}' :: s) := by
  rw [statements_congr (skip_newline _), body_reads h, statements_congr (skip_margin _ _),
    statements_close]
  simp

/-- A function after its keyword, whatever the layout of its body. -/
theorem function_reads {name : String} (hname : name = "" ∨ isName name)
    {params : List (String × Option Expr)} (hparams : paramsProper params)
    {body : List Stmt} {s t : List Char}
    (hbody : script.statements t = some (eraseBody body, '}' :: s)) :
    script.function ((if name.isEmpty then [] else ' ' :: name.toList) ++
      '(' :: ((", ".intercalate (params.map (·.1))).toList ++ ')' :: ' ' :: '{' :: t)) =
      some ((name, eraseParams params, eraseBody body), s) := by
  have hnames : ∀ p ∈ params.map (·.1), isFreeName p := by
    intro p hp
    obtain ⟨q, hq, rfl⟩ := mem_map.mp hp
    exact all_eq_true.mp hparams q hq
  have hread := names_intercalate (params.map (·.1)) hnames (' ' :: '{' :: t)
  generalize (", ".intercalate (params.map (·.1))).toList ++ ')' :: ' ' :: '{' :: t = rest at hread
  have hword : word (skip ((if name.isEmpty then [] else ' ' :: name.toList) ++ '(' :: rest)) =
      (name, '(' :: rest) := by
    rcases hname with rfl | hname
    · rfl
    · obtain ⟨c, u, hc, _⟩ := isName_cases hname
      have hne : name.isEmpty = false := by
        rw [eq_false_iff, ne_eq, String.isEmpty_iff]
        rintro rfl
        cases hc
      rw [hne, if_neg (by decide), cons_append, skip_space, skip_name hname,
        word_name hname rfl]
  have hopen : symbol '(' ('(' :: rest) = some rest := rfl
  have hbrace : symbol '{' (' ' :: '{' :: t) = some t := rfl
  have hclose : symbol '}' ('}' :: s) = some s := rfl
  rw [function]
  simp only [hword, hopen, hread, hbrace, hbody, hclose, bind_eq_bind, bind_some]
  simp [eraseParams]

theorem Reads.of_function {name : String} (hname : name = "" ∨ isName name)
    {params : List (String × Option Expr)} (hparams : paramsProper params)
    (hbody : ∀ st ∈ body, StmtReads width st) : Reads width (.function name params body) := by
  have hclear : ∀ r, clear ((if name.isEmpty then [] else ' ' :: name.toList) ++ '(' :: r) =
      true := by
    intro r
    split <;> rfl
  have text : ∀ depth s, ∃ t, (Expr.function name params body).bare width depth ++ s =
      "function".toList ++ t ∧ clear t ∧
      script.function t = some ((name, eraseParams params, eraseBody body), s) := by
    intro depth s
    cases body with
    | nil =>
      refine ⟨_, ?_, hclear _, function_reads hname hparams (statements_close s)⟩
      by_cases he : name.isEmpty <;> simp [bare, pieces, header, he]
    | cons st body =>
      refine ⟨_, ?_, hclear _, function_reads hname hparams
        (body_reads_closed hbody (depth + 1) (depth * width) s)⟩
      by_cases he : name.isEmpty <;> simp [bare, pieces, header, he]
  apply chain_level
  · intro depth s _ hbreak u f r hword hf
    obtain ⟨t, ht, hclear, hread⟩ := text depth s
    have hskip : skip ("function".toList ++ t) = "function".toList ++ t := skip_name (by decide) t
    rw [ht, hskip, word_name (by decide) hclear] at hword
    obtain ⟨-, rfl⟩ := Prod.mk.inj hword
    rw [hread] at hf
    obtain ⟨-, rfl⟩ := Prod.mk.inj (some.inj hf)
    exact hbreak
  · intro depth negation s _
    obtain ⟨t, ht, hclear, hread⟩ := text depth s
    rw [ht, operand_word (by decide) hclear, wordOperand, if_neg (by decide), if_pos rfl, hread]
    rfl

/-- A line with a statement and the statements behind it. -/
theorem statements_line {st : Stmt} {c : Char} {r s t : List Char} (hfront : skip t = c :: r)
    (hc : c ≠ '}') (h : script.statement (skip t) = some (st, '\n' :: s)) (margin : Nat) :
    script.statements (replicate margin ' ' ++ t) =
      (script.statements s).bind fun (rest, r) => some (st :: rest, r) := by
  rw [statements_congr (skip_margin margin t), statements]
  split
  · next heq => rw [hfront] at heq; cases heq
  · next heq => rw [hfront] at heq; exact absurd (cons.inj heq).1 hc
  · simp only [h, statements_congr (skip_newline s), bind_eq_bind, bind_some]

/-- An expression that ends in a semicolon is read as a statement. -/
theorem statement_expr {x : Expr} {s : List Char} (hin : script.expr 0 t = some (x, ';' :: s))
    (hunbroken : Unbroken t) : script.statement (skip t) = some (.expr x, s) := by
  have hsemi : symbol ';' (';' :: s) = some s := rfl
  have noWord : ∀ w r, isName w → w ∈ script.reserved → w ≠ "new" → w ≠ "function" →
      word (skip t) ≠ (w, r) := by
    intro w r hw hres hnew hfunction hword
    rw [expr, operand_front hw hword, wordOperand, if_neg hnew, if_neg hfunction,
      if_pos hres] at hin
    cases hin
  rw [statement]
  split
  · next r hword => exact absurd hword (noWord _ r (by decide) (by decide) (by decide) (by decide))
  · next r hword => exact absurd hword (noWord _ r (by decide) (by decide) (by decide) (by decide))
  · next r hword =>
    rw [expr, operand_front (by decide) hword, wordOperand, if_neg (by decide),
      if_pos rfl] at hin
    obtain ⟨⟨y, s2⟩, hoperand, hclimb⟩ := bind_eq_some_iff.mp hin
    obtain ⟨⟨⟨name, params, body⟩, s1⟩, hf, hsuffixes⟩ := bind_eq_some_iff.mp hoperand
    change script.climb 0 y s2 = _ at hclimb
    change script.suffixes (.function name params body) s1 = _ at hsuffixes
    have hbreak : ¬ (name ≠ "" ∧ s1.head? = some '\n') :=
      fun h => hunbroken r _ s1 hword hf h.2
    simp only [hf, hbreak, if_false, hsuffixes, hclimb, hsemi, bind_eq_bind,
      bind_some]
  · simp only [expr_congr (skip_skip t), hin, hsemi, bind_eq_bind, bind_some]

namespace StmtReads

variable {x : Expr} {name : String}

theorem of_expr (hx : Reads width x) : StmtReads width (.expr x) := by
  intro depth s
  have text : ∃ t, layout width ((Stmt.expr x).pieces depth) ++ s =
      replicate (depth * width) ' ' ++ t ∧
      script.expr 0 t = some (x.erase, ';' :: '\n' :: s) ∧ Unbroken t := by
    cases hshield : x.needsShield with
    | true =>
      refine ⟨'(' :: (x.bare width depth ++ ')' :: ';' :: '\n' :: s), ?_, ?_, ?_⟩
      · simp [Stmt.pieces, hshield, enclose, bare, rank]
      · have hfollow : follow (';' :: '\n' :: s) ≤ 7 := Nat.zero_le 7
        rw [expr, hx.operand_wrapped, suffixes_stop _ hfollow]
        exact climb_stop _ (Or.inr rfl)
      · exact Reads.unbroken_of_front (by decide) (by decide) (by decide) _
    | false =>
      refine ⟨x.bare width depth ++ ';' :: '\n' :: s, ?_, hx.inside depth rfl rfl,
        hx.unbroken depth _ rfl (by simp)⟩
      simp [Stmt.pieces, hshield, bare, rank]
  obtain ⟨t, ht, hin, hunbroken⟩ := text
  obtain ⟨c, r, hfront, _, _, hc⟩ := expr_front hin
  rw [ht, statements_line hfront hc (statement_expr hin hunbroken)]
  rfl

/-- A statement that starts with a keyword. -/
theorem of_keyword {st : Stmt} {w : String} (hw : isName w) {depth : Nat} {s t : List Char}
    (htext : layout width (st.pieces depth) ++ s =
      replicate (depth * width) ' ' ++ (w.toList ++ t))
    (hread : script.statement (w.toList ++ t) = some (st.erase, '\n' :: s)) :
    script.statements (layout width (st.pieces depth) ++ s) =
      (script.statements s).bind fun (rest, r) => some (st.erase :: rest, r) := by
  obtain ⟨c, u, hc, hstart, _⟩ := isName_cases hw
  have hskip := skip_name hw t
  have hfront : skip (w.toList ++ t) = c :: (u ++ t) := by rw [hskip, hc, cons_append]
  have hbrace : c ≠ '}' := by rintro rfl; exact absurd hstart (by decide)
  rw [htext, statements_line hfront hbrace (hskip.symm ▸ hread)]

theorem of_ret (hx : Reads width x) : StmtReads width (.ret x) := by
  intro depth s
  have hin : script.expr 0 (' ' :: (x.bare width depth ++ ';' :: '\n' :: s)) =
      some (x.erase, ';' :: '\n' :: s) := by
    rw [expr_congr (skip_space _)]
    exact hx.inside depth rfl rfl
  apply of_keyword (w := "return") (t := ' ' :: (x.bare width depth ++ ';' :: '\n' :: s))
    (by decide)
  · simp [Stmt.pieces, bare, rank]
  · rw [statement, word_name (by decide) rfl]
    simp only [hin, bind_eq_bind, bind_some]
    rfl

theorem of_var (hname : isFreeName name) (hx : Reads width x) :
    StmtReads width (.var name x) := by
  intro depth s
  obtain ⟨hname, _⟩ := isFreeName_iff.mp hname
  have hin : script.expr 0 (' ' :: (x.shown width depth 2 ++ ';' :: '\n' :: s)) =
      some (x.erase, ';' :: '\n' :: s) := by
    rw [expr_congr (skip_space _)]
    exact hx.shown_inside (by decide) depth rfl rfl
  have hequals : ∀ r, symbol '=' (' ' :: '=' :: r) = some r := fun _ => rfl
  apply of_keyword (w := "var")
    (t := ' ' :: (name.toList ++ ' ' :: '=' :: ' ' :: (x.shown width depth 2 ++ ';' :: '\n' :: s)))
    (by decide)
  · simp [Stmt.pieces, shown, rank]
  · rw [statement, word_name (by decide) rfl]
    simp only [skip_space, skip_name hname, identifier_name hname (s := ' ' :: _) rfl, hequals, hin,
      bind_eq_bind, bind_some]
    rfl

/-- A declaration is told from an expression by the line break behind its brace. -/
theorem of_function (hname : isFreeName name) {params : List (String × Option Expr)}
    (hparams : paramsProper params) {body : List Stmt}
    (hbody : ∀ st ∈ body, StmtReads width st) : StmtReads width (.function name params body) := by
  intro depth s
  obtain ⟨hname, _⟩ := isFreeName_iff.mp hname
  have hne : name ≠ "" := by rintro rfl; exact absurd hname (by decide)
  have hread := function_reads (Or.inr hname) hparams
    (body_reads_closed hbody (depth + 1) (depth * width) ('\n' :: s))
  have hempty : name.isEmpty = false := by
    rw [eq_false_iff, ne_eq, String.isEmpty_iff]
    exact hne
  rw [hempty, if_neg (by decide), cons_append] at hread
  refine of_keyword (w := "function") (by decide) ?_ ?_ (t := ' ' :: (name.toList ++ '(' ::
    ((", ".intercalate (params.map (·.1))).toList ++ ')' :: ' ' :: '{' :: '\n' ::
      (layout width (bodyPieces (depth + 1) body) ++
        (replicate (depth * width) ' ' ++ '}' :: '\n' :: s)))))
  · simp [Stmt.pieces]
  · rw [statement, word_name (by decide) rfl]
    simp only [hread, bind_eq_bind, bind_some]
    rw [if_pos ⟨hne, rfl⟩]
    rfl

end StmtReads

mutual

/-- Every proper expression is read back at its place. -/
theorem expr_reads : ∀ e : Expr, e.isProper → Reads width e
  | .string value, _ => .of_string value
  | .number digits, h => .of_number h
  | .name name, h => .of_name h
  | .object ps, h => .of_object (properties_reads ps h)
  | .list xs, h => .of_list (items_reads xs h)
  | .attribute x name, h => by
    simp only [Expr.isProper, and_eq_true] at h
    exact .of_attribute (expr_reads x h.1) h.2
  | .item x index, h => by
    simp only [Expr.isProper, and_eq_true] at h
    exact .of_item (expr_reads x h.1) (expr_reads index h.2)
  | .call f xs, h => by
    simp only [Expr.isProper, and_eq_true] at h
    exact .of_call (expr_reads f h.1) (items_reads xs h.2)
  | .new x, h => .of_new (expr_reads x h)
  | .not x, h => .of_not (expr_reads x h)
  | .and l r, h => by
    simp only [Expr.isProper, and_eq_true] at h
    exact .of_and (expr_reads l h.1) (expr_reads r h.2)
  | .or l r, h => by
    simp only [Expr.isProper, and_eq_true] at h
    exact .of_or (expr_reads l h.1) (expr_reads r h.2)
  | .operation op l r, h => by
    simp only [Expr.isProper, and_eq_true] at h
    exact .of_operation h.1.1 (expr_reads l h.1.2) (expr_reads r h.2)
  | .function name params body, h => by
    simp only [Expr.isProper, and_eq_true, or_eq_true, String.isEmpty_iff] at h
    exact .of_function (h.1.1.imp id fun h => (isFreeName_iff.mp h).1) h.1.2
      (stmts_read body h.2)
  | .assign x name v, h => by
    simp only [Expr.isProper, and_eq_true] at h
    exact .of_assign (expr_reads x h.1.1) h.1.2 (expr_reads v h.2)
  | .ternary c t e, h => by
    simp only [Expr.isProper, and_eq_true] at h
    exact .of_ternary (expr_reads c h.1.1) (expr_reads t h.1.2) (expr_reads e h.2)
  | .missing, h => by cases h

theorem properties_reads : ∀ ps : List (String × Expr), propertiesProper ps →
    ∀ p ∈ ps, Reads width p.2
  | [], _ => forall_mem_nil _
  | (_, x) :: ps, h => by
    simp only [propertiesProper, and_eq_true] at h
    exact forall_mem_cons.mpr ⟨expr_reads x h.1, properties_reads ps h.2⟩

theorem items_reads : ∀ xs : List Expr, itemsProper xs → ∀ x ∈ xs, Reads width x
  | [], _ => forall_mem_nil _
  | x :: xs, h => by
    simp only [itemsProper, and_eq_true] at h
    exact forall_mem_cons.mpr ⟨expr_reads x h.1, items_reads xs h.2⟩

theorem stmt_reads : ∀ st : Stmt, st.isProper → StmtReads width st
  | .expr x, h => .of_expr (expr_reads x h)
  | .ret x, h => .of_ret (expr_reads x h)
  | .var name x, h => by
    simp only [Stmt.isProper, and_eq_true] at h
    exact .of_var h.1 (expr_reads x h.2)
  | .function name params body, h => by
    simp only [Stmt.isProper, and_eq_true] at h
    exact .of_function h.1.1 h.1.2 (stmts_read body h.2)
  | .missing, h => by cases h

theorem stmts_read : ∀ body : List Stmt, bodyProper body →
    ∀ st ∈ body, StmtReads width st
  | [], _ => forall_mem_nil _
  | st :: body, h => by
    simp only [bodyProper, and_eq_true] at h
    exact forall_mem_cons.mpr ⟨stmt_reads st h.1, stmts_read body h.2⟩

end

end Stencil.Script.Reader

namespace Stencil.Script

/-- Printing loses no structure: the text of code, at any indent width, is read as the same code up
to the default values of parameters. -/
theorem Code.read_text (width : Int) (code : Code) (h : bodyProper code = true) :
    Reader.read (code.text width) = some (eraseBody code) := by
  have hempty : Reader.script.statements [] = some ([], []) := by
    rw [Reader.Grammar.statements]
    rfl
  have hbody : Reader.script.statements
      (layout (indentWidth width) (bodyPieces 0 code) ++ []) = _ :=
    Reader.body_reads (Reader.stmts_read code h) 0 []
  rw [List.append_nil, hempty] at hbody
  rw [Reader.read, code.toList_text, hbody]
  simp

/-- Operators of all strengths, a conjunction under a disjunction, a conditional in parentheses, a
function that starts a statement and a default value. -/
def mixedCode : Code :=
  [.function "render" [("x", some (.string "a")), ("y", none)]
    [.var "sum" (.operation (.arith .mul)
      (.operation (.arith .add) (.name "x") (.number "1_0.5")) (.new (.call (.name "y") []))),
     .ret (.object [("new", .or (.and (.name "x") (.not (.name "y"))) (.name "sum")),
       ("a b", .attribute (.ternary (.name "x") (.list [.string "\"\n"]) (.name "y")) "length")])],
   .expr (.call (.function "f" [] [.ret (.item (.name "$") (.number "0"))]) []),
   .expr (.assign (.attribute (.name "exports") "a") "b"
     (.operation (.relation .equal) (.operation (.relation .less) (.name "a") (.name "b"))
       (.name "c")))]

theorem mixedCode_read :
    bodyProper mixedCode = true ∧
      Reader.read (Code.text 2 mixedCode) = some (eraseBody mixedCode) :=
  ⟨by decide, Code.read_text 2 mixedCode (by decide)⟩

end Stencil.Script
