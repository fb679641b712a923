import Stencil.Proofs.Token.Coverage

/-!
# Clusters of texts that are put together

Which clusters a text falls into is decided at each place between two characters, by what stands
before the place and by the character after it. So clusters can be told from others without their
text: each of them holds together, and none joins to the one before it. Texts may be cut and put
together wherever nothing joins.
-/
namespace Stencil.Text

open List

theorem BreakClass.of_eq_break {c : Char} :
    (of c = .lineFeed → c = '\n') ∧ (of c = .carriageReturn → c = '\r') := by
  have hascii : (ofAscii c = .lineFeed → c = '\n') ∧
      (ofAscii c = .carriageReturn → c = '\r') := by
    unfold BreakClass.ofAscii
    by_cases hreturn : c = '\r'
    · simp [hreturn]
    by_cases hline : c = '\n'
    · simp [hline]
    split_ifs <;> simp_all
  have hhangul : ∀ hangul, BreakClass.ofHangul c.toNat = some hangul →
      hangul ≠ .lineFeed ∧ hangul ≠ .carriageReturn := by
    intro hangul heq
    unfold BreakClass.ofHangul at heq
    split_ifs at heq <;> cases heq <;> decide
  unfold BreakClass.of
  split
  · exact hascii
  · cases heq : BreakClass.ofHangul c.toNat with
    | some hangul =>
      have := hhangul hangul heq
      split_ifs <;> simp_all
    | none => split_ifs <;> simp

namespace BreakContext

/-- What a text ends in, after what stands before it. -/
def after (before : BreakContext) (cs : List Char) : BreakContext :=
  cs.foldl (fun context c => context.next (.of c)) before

/-- Each character joins to what stands before it. -/
def holds : BreakContext → List Char → Bool
  | _, [] => true
  | before, c :: cs => before.joins (.of c) && (before.next (.of c)).holds cs

theorem after_cons (before : BreakContext) (c : Char) (cs : List Char) :
    before.after (c :: cs) = (before.next (.of c)).after cs := rfl

theorem after_append (before : BreakContext) (cs ds : List Char) :
    before.after (cs ++ ds) = (before.after cs).after ds := foldl_append

variable {c : BreakClass} {before : BreakContext}

theorem next_ne_carriageReturn (before : BreakContext) (h : c ≠ .carriageReturn) :
    before.next c ≠ .carriageReturn := by
  revert h
  cases before <;> cases c <;> decide

theorem joins_break (h : before.joins c) (hbefore : before ≠ .carriageReturn) :
    c ≠ .lineFeed ∧ c ≠ .carriageReturn := by
  revert h hbefore
  cases before <;> cases c <;> decide

theorem joins_carriageReturn (h : BreakContext.carriageReturn.joins c) : c = .lineFeed := by
  revert h
  cases c <;> decide

/-- After anything but a carriage return no line feed joins. -/
theorem not_mem_of_holds {cs : List Char} (h : before.holds cs)
    (hbefore : before ≠ .carriageReturn) : '\n' ∉ cs := by
  induction cs generalizing before with
  | nil => exact not_mem_nil
  | cons c cs ih =>
    obtain ⟨hjoins, hlater⟩ := Bool.and_eq_true_iff.mp h
    obtain ⟨hfeed, hreturn⟩ := joins_break hjoins hbefore
    rw [mem_cons, not_or]
    exact ⟨fun heq => hfeed (by rw [← heq]; rfl), ih hlater (next_ne_carriageReturn before hreturn)⟩

end BreakContext

namespace Cluster

/-- Nothing of the clusters joins to what stands before them. -/
def startsApart (before : BreakContext) (ks : List Cluster) : Bool :=
  ks.head?.all fun k => !before.joins (.of k.first)

/-- Each cluster holds together and joins to none before it. -/
def isSegmented : BreakContext → List Cluster → Bool
  | _, [] => true
  | before, k :: ks =>
    (before.next (.of k.first)).holds k.joined && startsApart (before.after k.chars) ks &&
      isSegmented (before.after k.chars) ks

theorem segmentFrom_ne_nil (before : BreakContext) (c : Char) (cs : List Char) :
    ∃ joined ks, segmentFrom before (c :: cs) = ⟨c, joined⟩ :: ks := by
  unfold segmentFrom
  dsimp only
  split
  · split
    · exact ⟨_, _, rfl⟩
    · exact ⟨_, _, rfl⟩
  · exact ⟨_, _, rfl⟩

variable {before instead : BreakContext} {ks : List Cluster} {k : Cluster} {cs : List Char}

/-- A cluster that nothing joins to comes first. -/
theorem segmentFrom_cons {c : Char} {joined rest : List Char}
    (hjoined : (before.next (.of c)).holds joined)
    (hrest : ∀ d ∈ rest.head?, (before.after (c :: joined)).joins (.of d) = false) :
    segmentFrom before (c :: (joined ++ rest)) =
      ⟨c, joined⟩ :: segmentFrom (before.after (c :: joined)) rest := by
  induction joined generalizing before c with
  | nil =>
    cases rest with
    | nil => rfl
    | cons d ds =>
      obtain ⟨more, ks, hks⟩ := segmentFrom_ne_nil (before.next (.of c)) d ds
      have hapart : (before.next (.of c)).joins (.of d) = false := hrest d rfl
      rw [nil_append, segmentFrom.eq_2 before c d ds _ _ hks, if_neg (by simp [hapart])]
      exact congrArg (_ :: ·) hks.symm
  | cons e joined ih =>
    obtain ⟨he, hlater⟩ := Bool.and_eq_true_iff.mp hjoined
    have hcluster := ih hlater hrest
    rw [cons_append, segmentFrom.eq_2 before c e _ _ _ hcluster, if_pos he]
    rfl

theorem segmentFrom_flatMap (h : isSegmented before ks) :
    segmentFrom before (ks.flatMap chars) = ks := by
  induction ks generalizing before with
  | nil => rfl
  | cons k ks ih =>
    rw [isSegmented, Bool.and_eq_true, Bool.and_eq_true] at h
    obtain ⟨⟨hholds, hapart⟩, hlater⟩ := h
    have hrest : ∀ d ∈ (ks.flatMap chars).head?,
        (before.after (k.first :: k.joined)).joins (.of d) = false := by
      intro d hd
      cases ks with
      | nil => cases hd
      | cons l ks =>
        obtain rfl : l.first = d := Option.some.inj hd
        simpa [startsApart, chars] using hapart
    rw [flatMap_cons, chars, cons_append, segmentFrom_cons hholds hrest]
    exact congrArg (k :: ·) (ih hlater)

theorem isSegmented_segmentFrom (before : BreakContext) (cs : List Char) :
    isSegmented before (segmentFrom before cs) := by
  induction cs generalizing before with
  | nil => rfl
  | cons c cs ih =>
    cases cs with
    | nil => rfl
    | cons d ds =>
      have hlater := ih (before.next (.of c))
      obtain ⟨more, ks, hks⟩ := segmentFrom_ne_nil (before.next (.of c)) d ds
      rw [hks] at hlater
      rw [segmentFrom.eq_2 before c d ds _ _ hks]
      by_cases hjoins : (before.next (.of c)).joins (.of d)
      · rw [if_pos hjoins]
        rw [isSegmented, Bool.and_eq_true, Bool.and_eq_true] at hlater ⊢
        exact ⟨⟨Bool.and_eq_true_iff.mpr ⟨hjoins, hlater.1.1⟩, hlater.1.2⟩, hlater.2⟩
      · rw [if_neg hjoins, isSegmented, Bool.and_eq_true, Bool.and_eq_true]
        exact ⟨⟨rfl, by simpa [startsApart, chars, BreakContext.after] using hjoins⟩, hlater⟩

theorem isSegmented_segment (source : String) : isSegmented .other (segment source) :=
  isSegmented_segmentFrom _ _

theorem isSegmented_append {ls : List Cluster} : isSegmented before (ks ++ ls) ↔
      isSegmented before ks ∧ isSegmented (before.after (ks.flatMap chars)) ls ∧
        (ks ≠ [] → startsApart (before.after (ks.flatMap chars)) ls) := by
  induction ks generalizing before with
  | nil => simp [isSegmented, BreakContext.after]
  | cons k ks ih =>
    have hafter : before.after ((k :: ks).flatMap chars) =
        (before.after k.chars).after (ks.flatMap chars) := by
      rw [flatMap_cons, BreakContext.after_append]
    rw [cons_append, isSegmented, isSegmented, hafter]
    simp only [Bool.and_eq_true, ih]
    cases ks with
    | nil =>
      have hnil : (before.after k.chars).after (flatMap chars []) = before.after k.chars := rfl
      simp only [hnil, nil_append, ne_eq, reduceCtorEq, not_true_eq_false, not_false_eq_true,
        forall_const, false_implies, isSegmented, startsApart, head?_nil, Option.all_none]
      tauto
    | cons l ks =>
      simp only [cons_append, startsApart, head?_cons, ne_eq, reduceCtorEq,
        not_false_eq_true, forall_const]
      tauto

/-- What stands before clusters matters only to the first character of them. -/
theorem isSegmented_congr (ks : List Cluster)
    (h : before.next (.of k.first) = instead.next (.of k.first)) :
    isSegmented before (k :: ks) = isSegmented instead (k :: ks) := by
  have hafter : before.after k.chars = instead.after k.chars := by
    rw [chars, BreakContext.after_cons, BreakContext.after_cons, h]
  rw [isSegmented, isSegmented, h, hafter]

/-- A text may be cut where nothing joins. -/
theorem segmentFrom_append {ds : List Char}
    (h : ∀ d ∈ ds.head?, (before.after cs).joins (.of d) = false) :
    segmentFrom before (cs ++ ds) = segmentFrom before cs ++ segmentFrom (before.after cs) ds := by
  have hapart : startsApart (before.after cs) (segmentFrom (before.after cs) ds) := by
    cases ds with
    | nil => rfl
    | cons d ds =>
      obtain ⟨joined, ks, hks⟩ := segmentFrom_ne_nil (before.after cs) d ds
      rw [hks]
      simpa [startsApart] using h d rfl
  have hwhole : isSegmented before
      (segmentFrom before cs ++ segmentFrom (before.after cs) ds) := by
    rw [isSegmented_append, chars_segmentFrom]
    exact ⟨isSegmented_segmentFrom _ _, isSegmented_segmentFrom _ _, fun _ => hapart⟩
  have hchars : (segmentFrom before cs ++ segmentFrom (before.after cs) ds).flatMap chars =
      cs ++ ds := by
    rw [flatMap_append, chars_segmentFrom, chars_segmentFrom]
  rw [← hchars, segmentFrom_flatMap hwhole]

/-- What stands before a text matters only to its first character. -/
theorem segmentFrom_congr (h : ∀ c ∈ cs.head?, before.next (.of c) = instead.next (.of c)) :
    segmentFrom before cs = segmentFrom instead cs := by
  cases cs with
  | nil => rfl
  | cons c cs =>
    unfold segmentFrom
    rw [h c rfl]

theorem segmentFrom_control (cs : List Char) : segmentFrom .control cs = segmentFrom .other cs :=
  segmentFrom_congr fun c _ => by cases BreakClass.of c <;> rfl

/-- A text after a line break falls into the same clusters as on its own. -/
theorem segmentFrom_lineFeed (h : cs.getLast? = some '\n') (ds : List Char) :
    segmentFrom .other (cs ++ ds) = segmentFrom .other cs ++ segmentFrom .other ds := by
  have hend : BreakContext.after .other cs = .control := by
    obtain ⟨front, rfl⟩ := getLast?_eq_some_iff.mp h
    rw [BreakContext.after_append]
    generalize BreakContext.after .other front = before
    cases before <;> rfl
  rw [segmentFrom_append (by rw [hend]; exact fun _ _ => rfl), hend, segmentFrom_control]

theorem segment_append {u v : String} (hu : u = "" ∨ u.toList.getLast? = some '\n') :
    segment (u ++ v) = segment u ++ segment v := by
  rcases hu with rfl | hbreak
  · rw [String.empty_append]
    rfl
  · rw [segment, String.toList_append, segmentFrom_lineFeed hbreak]
    rfl

/-- A space is a cluster of its own unless a mark joins to it. -/
theorem segmentFrom_space (cs : List Char) :
    segmentFrom .other (' ' :: cs) = ⟨' ', []⟩ :: segmentFrom .other cs ∨
      ∃ c rest joined ks, cs = c :: rest ∧ BreakContext.other.joins (.of c) ∧
        segmentFrom .other (' ' :: cs) = ⟨' ', c :: joined⟩ :: ks := by
  cases cs with
  | nil => exact .inl rfl
  | cons c rest =>
    obtain ⟨joined, ks, hks⟩ := segmentFrom_ne_nil .other c rest
    have hspace := segmentFrom.eq_2 .other ' ' c rest _ _ hks
    by_cases hjoins : BreakContext.other.joins (.of c)
    · exact .inr ⟨c, rest, joined, ks, rfl, hjoins, hspace.trans (if_pos hjoins)⟩
    · rw [hks]
      exact .inl (hspace.trans (if_neg hjoins))

/-! ## Line breaks -/

/-- A cluster holds a line feed just if it is a line break, and then one. -/
theorem count_lineFeed (h : (before.next (.of k.first)).holds k.joined) :
    k.chars.count '\n' = if k.lead = '\n' then 1 else 0 := by
  obtain ⟨first, joined⟩ := k
  have hcontrol : ∀ cs, BreakContext.control.holds cs → cs = [] := by
    intro cs hcs
    cases cs with
    | nil => rfl
    | cons c cs => cases hcs
  by_cases hline : first = '\n'
  · subst hline
    have hnext : before.next (.of '\n') = .control := by cases before <;> rfl
    rw [hnext] at h
    obtain rfl := hcontrol joined h
    rfl
  by_cases hreturn : first = '\r'
  · subst hreturn
    have hnext : before.next (.of '\r') = .carriageReturn := by cases before <;> rfl
    rw [hnext] at h
    cases joined with
    | nil => rfl
    | cons d ds =>
      obtain ⟨hjoins, hlater⟩ := Bool.and_eq_true_iff.mp h
      have hfeed := BreakContext.joins_carriageReturn hjoins
      rw [hfeed] at hlater
      obtain rfl := BreakClass.of_eq_break.1 hfeed
      obtain rfl := hcontrol ds hlater
      rfl
  · have hnone := BreakContext.not_mem_of_holds h (BreakContext.next_ne_carriageReturn before
      fun hclass => hreturn (BreakClass.of_eq_break.2 hclass))
    have hlead : lead ⟨first, joined⟩ ≠ '\n' := by
      unfold lead
      split
      · next hchars => exact absurd (cons.inj hchars).1 hreturn
      · exact hline
    rw [if_neg hlead, count_eq_zero]
    simp only [chars, mem_cons, not_or]
    exact ⟨fun heq => hline heq.symm, hnone⟩

/-- The number of line breaks. -/
def breaks (ks : List Cluster) : Nat := ks.countP (·.lead = '\n')

theorem breaks_of_isSegmented (h : isSegmented before ks) :
    breaks ks = (ks.flatMap chars).count '\n' := by
  induction ks generalizing before with
  | nil => rfl
  | cons k ks ih =>
    rw [isSegmented, Bool.and_eq_true, Bool.and_eq_true] at h
    rw [flatMap_cons, count_append, count_lineFeed h.1.1, ← ih h.2, breaks,
      countP_cons, ← breaks, Nat.add_comm]
    simp

theorem breaks_segment (source : String) : breaks (segment source) = source.toList.count '\n' := by
  rw [breaks_of_isSegmented (isSegmented_segment source), segment, chars_segmentFrom]

end Cluster
end Stencil.Text
