import Stencil.Proofs.Text.Segmentation

/-!
# Where texts may be cut

A printable ASCII character joins to none before it, and only marks join to it. So a text may be cut
behind such a character in front of another, whatever else is in it. In a text of ASCII characters
each is a cluster of its own, but a carriage return goes with a line feed.
-/
namespace Stencil.Text

open List

/-- A character that is put on the one before it, whatever that is. -/
def BreakClass.attaches : BreakClass → Bool
  | .extend | .joiner | .spacingMark => true
  | _ => false

/-- A printable ASCII character. -/
def isPlain (c : Char) : Bool := 0x20 ≤ c.toNat && c.toNat < 0x7f

/-- A character that joins to none before it but a carriage return. -/
def isApart (c : Char) : Bool := isPlain c || c = '\n'

variable {c : Char} {cs ds : List Char}

theorem isPlain_iff : isPlain c ↔ 0x20 ≤ c.toNat ∧ c.toNat < 0x7f := by simp [isPlain]

theorem isApart_of_isPlain (h : isPlain c) : isApart c := by
  rw [isApart, h]
  rfl

namespace BreakClass

theorem of_isPlain (h : isPlain c) : of c = .other := by
  obtain ⟨hlow, hhigh⟩ := isPlain_iff.mp h
  have hreturn : c ≠ '\r' := by rintro rfl; exact absurd hlow (by decide)
  have hfeed : c ≠ '\n' := by rintro rfl; exact absurd hlow (by decide)
  rw [of, if_pos (by omega), ofAscii, if_neg hreturn, if_neg hfeed, if_neg]
  simp only [Bool.or_eq_true, decide_eq_true_eq]
  omega

theorem of_ascii (h : c.toNat < 0x80) :
    of c = .carriageReturn ∨ of c = .lineFeed ∨ of c = .control ∨ of c = .other := by
  rw [of, if_pos h, ofAscii]
  split_ifs <;> simp

theorem le_of_attaches (h : (of c).attaches) : 0x80 ≤ c.toNat := by
  by_contra hlow
  rcases of_ascii (Nat.not_le.mp hlow) with hclass | hclass | hclass | hclass <;> rw [hclass] at h <;>
    cases h

end BreakClass

namespace BreakContext

theorem next_other (before : BreakContext) : before.next .other = .other := by
  cases before <;> rfl

/-- After an ordinary character only marks join. -/
theorem holds_other (h : BreakContext.other.holds cs) :
    (∀ c ∈ cs, (BreakClass.of c).attaches) ∧ BreakContext.other.after cs = .other := by
  induction cs with
  | nil => exact ⟨by simp, rfl⟩
  | cons c cs ih =>
    obtain ⟨hjoins, hlater⟩ := Bool.and_eq_true_iff.mp h
    have hclass : (BreakClass.of c).attaches ∧ other.next (.of c) = .other := by
      revert hjoins
      cases BreakClass.of c <;> simp [joins, BreakClass.attaches, next]
    rw [hclass.2] at hlater
    obtain ⟨hall, hafter⟩ := ih hlater
    rw [after_cons, hclass.2]
    exact ⟨forall_mem_cons.mpr ⟨hclass.1, hall⟩, hafter⟩

end BreakContext

namespace Cluster

section

variable {before : BreakContext} {k : Cluster} {ks : List Cluster}

/-- A cluster that is led by a printable ASCII character holds no other. -/
structure IsPlain (k : Cluster) : Prop where
  marks : ∀ c ∈ k.joined, (BreakClass.of c).attaches = true
  holds : BreakContext.other.holds k.joined = true

theorem isPlain_of_mem (h : isSegmented before ks) (hk : k ∈ ks)
    (hfirst : isPlain k.first) : k.IsPlain := by
  obtain ⟨init, rest, rfl⟩ := append_of_mem hk
  obtain ⟨-, hrest, -⟩ := isSegmented_append.mp h
  rw [isSegmented, Bool.and_eq_true, Bool.and_eq_true, BreakClass.of_isPlain hfirst,
    BreakContext.next_other] at hrest
  exact ⟨(BreakContext.holds_other hrest.1.1).1, hrest.1.1⟩

/-- The only ASCII character of a plain cluster is the one that leads it. -/
theorem IsPlain.eq_first (h : k.IsPlain) (hc : c ∈ k.chars) (hascii : c.toNat < 0x80) :
    c = k.first := by
  rcases mem_cons.mp hc with rfl | hjoined
  · rfl
  · have := BreakClass.le_of_attaches (h.marks c hjoined)
    omega

end

/-! ## The clusters of characters -/

abbrev ofChars (cs : List Char) : List Cluster := segmentFrom .other cs

@[simp] theorem lead_single (c : Char) : (⟨c, []⟩ : Cluster).lead = c := by simp [lead, chars]

theorem text_ofChars (cs : List Char) : text (ofChars cs) = String.ofList cs := by
  rw [text, chars_segmentFrom]

theorem text_single (cs : List Char) : text (cs.map (⟨·, []⟩)) = String.ofList cs := by
  rw [text, flatMap_map]
  exact congrArg String.ofList (flatMap_singleton' cs)

theorem segment_ofList (cs : List Char) : segment (String.ofList cs) = ofChars cs := by
  rw [segment, String.toList_ofList]

theorem first_ofChars (cs : List Char) : (ofChars cs).head?.map (·.first) = cs.head? := by
  cases cs with
  | nil => rfl
  | cons c cs =>
    obtain ⟨joined, ks, hks⟩ := segmentFrom_ne_nil .other c cs
    rw [ofChars, hks]
    rfl

/-- A text that ends in an ordinary character may be cut in front of one. -/
theorem ofChars_append (hcs : BreakContext.after .other cs = .other)
    (hds : ∀ d ∈ ds.head?, isApart d) : ofChars (cs ++ ds) = ofChars cs ++ ofChars ds := by
  have hjoins : ∀ d ∈ ds.head?, (BreakContext.after .other cs).joins (.of d) = false := by
    intro d hd
    rw [hcs]
    rcases Bool.or_eq_true_iff.mp (hds d hd) with hplain | hfeed
    · rw [BreakClass.of_isPlain hplain]
      rfl
    · rw [of_decide_eq_true hfeed]
      rfl
  rw [ofChars, segmentFrom_append hjoins, hcs]

theorem ofChars_cons (hc : isPlain c) (hds : ∀ d ∈ ds.head?, isApart d) :
    ofChars (c :: ds) = ⟨c, []⟩ :: ofChars ds := by
  refine @ofChars_append [c] ds ?_ hds
  rw [BreakContext.after_cons, BreakClass.of_isPlain hc]
  rfl

/-- A text of printable characters falls into single ones. -/
theorem ofChars_plain (hcs : ∀ c ∈ cs, isPlain c) (hds : ∀ d ∈ ds.head?, isApart d) :
    ofChars (cs ++ ds) = cs.map (⟨·, []⟩) ++ ofChars ds := by
  induction cs with
  | nil => rfl
  | cons c cs ih =>
    obtain ⟨hc, hcs⟩ := forall_mem_cons.mp hcs
    rw [cons_append, ofChars_cons hc, ih hcs]
    · rfl
    · intro d hd
      cases cs with
      | nil => exact hds d hd
      | cons e cs =>
        cases hd
        exact isApart_of_isPlain (hcs _ mem_cons_self)

theorem ofChars_lineFeed (cs : List Char) : ofChars ('\n' :: cs) = ⟨'\n', []⟩ :: ofChars cs := by
  have hcut := @segmentFrom_cons .other '\n' [] cs rfl fun d _ => rfl
  rw [ofChars, ← nil_append cs, hcut]
  exact congrArg (_ :: ·) (segmentFrom_control cs)

/-- The cluster in front of a text that starts with a printable character or a line feed. -/
theorem ofChars_front (hc : isApart c) (cs : List Char) :
    ∃ k ks, ofChars (c :: cs) = k :: ks ∧ k.first = c ∧ k.lead = c := by
  obtain ⟨joined, ks, hks⟩ := segmentFrom_ne_nil .other c cs
  refine ⟨_, _, hks, rfl, lead_of_first ?_⟩
  rintro rfl
  cases hc

/-- A run of clusters ends in front of such a text. -/
theorem takeWhile_ofChars {p : Char → Bool} (hcs : ∀ c ∈ cs.head?, isApart c)
    (hnext : ∀ c ∈ cs.head?, p c = false) : (ofChars cs).takeWhile (p ·.lead) = [] := by
  cases cs with
  | nil => rfl
  | cons d cs =>
    obtain ⟨k, ks, hks, -, hlead⟩ := ofChars_front (hcs d rfl) cs
    rw [hks, takeWhile_cons_of_neg]
    rw [hlead, hnext d rfl]
    exact Bool.false_ne_true

/-- Of ASCII characters only a line feed joins to what stands before it, a carriage return. -/
theorem ofChars_ascii (hc : c.toNat < 0x80) (hcs : ∀ d ∈ cs.head?, d.toNat < 0x80) :
    ofChars (c :: cs) = ⟨c, []⟩ :: ofChars cs ∨
      ∃ ds, c = '\r' ∧ cs = '\n' :: ds ∧ ofChars (c :: cs) = ⟨c, ['\n']⟩ :: ofChars ds := by
  cases cs with
  | nil => exact .inl rfl
  | cons d ds =>
    have hd := BreakClass.of_ascii (hcs d rfl)
    have hsame : segmentFrom (BreakContext.other.next (.of c)) (d :: ds) = ofChars (d :: ds) := by
      refine segmentFrom_congr fun e he => ?_
      cases he
      rcases hd with hd | hd | hd | hd <;> rw [hd] <;>
        cases BreakContext.other.next (.of c) <;> rfl
    obtain ⟨joined, ks, hks⟩ := segmentFrom_ne_nil .other d ds
    rw [ofChars, hks] at hsame
    have hwhole := segmentFrom.eq_2 .other c d ds _ _ hsame
    split at hwhole
    · next hjoins =>
      have hbreak : BreakClass.of c = .carriageReturn ∧ BreakClass.of d = .lineFeed := by
        revert hjoins
        rcases BreakClass.of_ascii hc with hc | hc | hc | hc <;>
          rcases hd with hd | hd | hd | hd <;> rw [hc, hd] <;> decide
      obtain rfl := BreakClass.of_eq_break.2 hbreak.1
      obtain rfl := BreakClass.of_eq_break.1 hbreak.2
      have hfeed := hks.symm.trans (ofChars_lineFeed ds)
      obtain ⟨hfront, rfl⟩ := cons.inj hfeed
      rw [hfront] at hwhole
      exact .inr ⟨ds, rfl, rfl, hwhole⟩
    · rw [ofChars, ofChars, hwhole, hks]
      exact .inl rfl

end Cluster
end Stencil.Text
