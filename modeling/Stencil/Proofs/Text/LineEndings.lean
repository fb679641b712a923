import Stencil.Proofs.Text.Segmentation

/-!
# Line breaks with and without a carriage return

A line feed is a cluster of its own, and a carriage return in front of it joins to it. So putting a
carriage return in front of every line feed of a text without any changes these clusters only, and
both count as a line break.
-/
namespace Stencil.Text

open List BreakContext

/-- A carriage return in front of every line feed. -/
def withReturns (cs : List Char) : List Char :=
  cs.flatMap fun c => if c = '\n' then ['\r', '\n'] else [c]

/-- The text with a carriage return in front of every line feed. -/
def crlf (source : String) : String := String.ofList (withReturns source.toList)

theorem withReturns_append (cs ds : List Char) :
    withReturns (cs ++ ds) = withReturns cs ++ withReturns ds := flatMap_append

theorem withReturns_of_not_mem {cs : List Char} (h : '\n' ∉ cs) : withReturns cs = cs := by
  induction cs with
  | nil => rfl
  | cons c cs ih =>
    rw [mem_cons, not_or] at h
    rw [withReturns, flatMap_cons, if_neg (Ne.symm h.1), ← withReturns, ih h.2]
    rfl

namespace BreakContext

theorem next_break (before : BreakContext) :
    before.next .carriageReturn = .carriageReturn ∧ before.next .lineFeed = .control := by
  cases before <;> exact ⟨rfl, rfl⟩

theorem joins_return (before : BreakContext) : before.joins .carriageReturn = false := by
  cases before <;> rfl

end BreakContext

namespace Cluster

/-- The cluster with a carriage return, if it is a line break. -/
def returned (k : Cluster) : Cluster := if k.lead = '\n' then ⟨'\r', ['\n']⟩ else k

/-- A line break is a line feed on its own, and no other cluster holds one. -/
structure IsFed (k : Cluster) : Prop where
  alone : k.lead = '\n' → k = ⟨'\n', []⟩
  inside : k.lead ≠ '\n' → '\n' ∉ k.chars

theorem returned_of_lead {k : Cluster} (h : k.lead ≠ '\n') : k.returned = k := if_neg h

@[simp] theorem lead_returned (k : Cluster) : k.returned.lead = k.lead := by
  by_cases h : k.lead = '\n'
  · rw [returned, if_pos h, h]
    rfl
  · rw [returned_of_lead h]

namespace IsFed

variable {k : Cluster} {ks : List Cluster}

theorem chars_returned (h : k.IsFed) : k.returned.chars = withReturns k.chars := by
  by_cases hk : k.lead = '\n'
  · rw [h.alone hk]
    rfl
  · rw [returned_of_lead hk, withReturns_of_not_mem (h.inside hk)]

theorem flatMap_returned (h : ∀ k ∈ ks, k.IsFed) :
    (ks.map returned).flatMap chars = withReturns (ks.flatMap chars) := by
  induction ks with
  | nil => rfl
  | cons k ks ih =>
    obtain ⟨hk, hks⟩ := forall_mem_cons.mp h
    rw [map_cons, flatMap_cons, hk.chars_returned, ih hks, flatMap_cons, withReturns_append]

/-- Clusters without a line feed have no line break. -/
theorem map_returned (h : ∀ k ∈ ks, k.IsFed) (hfeed : '\n' ∉ ks.flatMap chars) :
    ks.map returned = ks := by
  have hsame : ks.map returned = ks.map id := by
    refine map_congr_left fun k hk => returned_of_lead fun hlead => ?_
    refine hfeed (mem_flatMap.mpr ⟨k, hk, ?_⟩)
    rw [(h k hk).alone hlead]
    exact mem_cons_self
  rw [hsame, map_id]

end IsFed

variable {before : BreakContext} {ks : List Cluster} {source : String}

/-- The clusters of a text without carriage returns. -/
theorem isFed_of_isSegmented (h : isSegmented before ks) (hreturn : '\r' ∉ ks.flatMap chars)
    : ∀ k ∈ ks, k.IsFed := by
  induction ks generalizing before with
  | nil => exact fun k hk => by cases hk
  | cons k ks ih =>
    simp only [isSegmented, Bool.and_eq_true] at h
    obtain ⟨⟨hholds, -⟩, hlater⟩ := h
    rw [flatMap_cons, mem_append, not_or] at hreturn
    refine forall_mem_cons.mpr ⟨⟨fun hlead => ?_, fun hlead hmem => ?_⟩, ih hlater hreturn.2⟩
    · obtain ⟨first, joined⟩ := k
      have hfirst : first = '\n' := (first_of_lead hlead).resolve_right fun heq =>
        hreturn.1 (by rw [chars, heq]; exact mem_cons_self)
      subst hfirst
      have hcontrol : before.next (.of '\n') = .control := (next_break before).2
      cases joined with
      | nil => rfl
      | cons d joined =>
        rw [hcontrol] at hholds
        cases (Bool.and_eq_true_iff.mp hholds).1
    · have hcount := count_lineFeed hholds
      rw [if_neg hlead, count_eq_zero] at hcount
      exact hcount hmem

theorem isSegmented_returned (hfed : ∀ k ∈ ks, k.IsFed) (h : isSegmented before ks) :
    isSegmented before (ks.map returned) := by
  induction ks generalizing before with
  | nil => rfl
  | cons k ks ih =>
    obtain ⟨hk, hks⟩ := forall_mem_cons.mp hfed
    simp only [isSegmented, Bool.and_eq_true] at h
    obtain ⟨⟨hholds, hapart⟩, hlater⟩ := h
    have hfeed : (.of '\n' : BreakClass) = .lineFeed ∧ (.of '\r' : BreakClass) = .carriageReturn :=
      ⟨rfl, rfl⟩
    have hreturned : (before.next (.of k.returned.first)).holds k.returned.joined ∧
        before.after k.returned.chars = before.after k.chars := by
      by_cases hlead : k.lead = '\n'
      · obtain ⟨hreturn, hline⟩ := next_break before
        rw [returned, if_pos hlead, hk.alone hlead]
        simp only [chars, after_cons, hfeed.1, hfeed.2, hreturn, hline]
        exact ⟨rfl, rfl⟩
      · rw [returned_of_lead hlead]
        exact ⟨hholds, rfl⟩
    have hapart' : startsApart (before.after k.chars) (ks.map returned) := by
      cases ks with
      | nil => rfl
      | cons j ks =>
        by_cases hlead : j.lead = '\n'
        · rw [map_cons, returned, if_pos hlead, startsApart, head?_cons, Option.all_some,
            hfeed.2, joins_return]
          rfl
        · rw [map_cons, returned_of_lead hlead]
          exact hapart
    rw [map_cons, isSegmented, hreturned.1, hreturned.2, hapart', ih hks hlater]
    rfl

theorem isFed_segment (h : '\r' ∉ source.toList) : ∀ k ∈ segment source, k.IsFed := by
  refine isFed_of_isSegmented (isSegmented_segment source) ?_
  rw [segment, chars_segmentFrom]
  exact h

theorem segment_crlf (h : '\r' ∉ source.toList) :
    segment (crlf source) = (segment source).map returned := by
  have hchars : (segment source).flatMap chars = source.toList := chars_segmentFrom _ _
  have hfed := isFed_segment h
  have hflat := IsFed.flatMap_returned hfed
  rw [hchars] at hflat
  rw [segment, crlf, String.toList_ofList, ← hflat]
  exact segmentFrom_flatMap (isSegmented_returned hfed (isSegmented_segment source))

end Cluster
end Stencil.Text
